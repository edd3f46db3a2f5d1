import KmushiCoin.Primitives.Transaction

/-!
# KmushiCoin.Masternode.Man

The **legacy masternode list**: masternodes by their collateral outpoint, each with the times
of its broadcast and of its last ping. `checkAndRemove` drops the ones that are spent, silent
for too long or outdated, and all of them once the legacy system is obsolete.

The caches of seen messages and of asked peers, which `CheckAndRemove` cleans up as well, are
left out here; `KmushiCoin.Masternode.Broadcast` has the messages and what is seen of them.
-/

namespace KmushiCoin

/-- How the messages of a masternode are signed. -/
inductive MessageVersion
  | strmess
  | hash
  deriving Repr, DecidableEq

structure Masternode where
  sigTime : Int
  /-- The time of the last ping; none for the null ping. -/
  lastPing : Option Int
  fCollateralSpent : Bool := false
  protocolVersion : Int32
  nMessVersion : MessageVersion
  deriving Repr, DecidableEq

/-- The masternodes by collateral. -/
abbrev MasternodeMan : Type := FMap OutPoint Masternode

/-- What the state of a masternode depends on besides itself. -/
structure MasternodeClock where
  adjustedTime : Int
  removalSeconds : Int
  expirationSeconds : Int
  minPingSeconds : Int
  activeProtocol : Int32
  /-- Whether the upgrade that rejects the old message version is active at the best height. -/
  rejectV0 : Bool

namespace Masternode

inductive State
  | preEnabled
  | enabled
  | expired
  | vinSpent
  | remove
  deriving Repr, DecidableEq

variable (clock : MasternodeClock) (mn : Masternode)

def isPingedWithin (seconds : Int) : Bool :=
  match mn.lastPing with
  | none => false
  | some sigTime => decide (clock.adjustedTime - sigTime < seconds)

def getActiveState : State :=
  if mn.fCollateralSpent then .vinSpent
  else if !mn.isPingedWithin clock clock.removalSeconds then .remove
  else if !mn.isPingedWithin clock clock.expirationSeconds then .expired
  else if decide (mn.lastPing.getD 0 - mn.sigTime < clock.minPingSeconds) then .preEnabled
  else .enabled

def setSpent : Masternode := { mn with fCollateralSpent := true }

end Masternode

namespace MasternodeMan

/-- Whether `CheckAndRemove` removes a masternode. -/
def removable (clock : MasternodeClock) (forceExpiredRemoval : Bool) (mn : Masternode) : Bool :=
  mn.getActiveState clock == .remove || mn.getActiveState clock == .vinSpent ||
    (forceExpiredRemoval && mn.getActiveState clock == .expired) ||
    decide (mn.protocolVersion < clock.activeProtocol) ||
    (clock.rejectV0 && mn.nMessVersion != .hash)

def checkAndRemove (clock : MasternodeClock) (legacyMNObsolete : Bool)
    (forceExpiredRemoval : Bool) (man : MasternodeMan) : MasternodeMan :=
  if legacyMNObsolete then ∅
  else Std.ExtTreeMap.filter (fun _ mn => !removable clock forceExpiredRemoval mn) man

/-- The legacy masternode with a collateral that is registered again is spent and removed. -/
def retire (clock : MasternodeClock) (legacyMNObsolete : Bool) (collateral : OutPoint)
    (man : MasternodeMan) : MasternodeMan :=
  match man[collateral]? with
  | none => man
  | some old_mn =>
    checkAndRemove clock legacyMNObsolete false (man.insert collateral old_mn.setSpent)

variable {clock : MasternodeClock} {legacyMNObsolete : Bool} {man : MasternodeMan}

/-- A retired masternode is gone. -/
theorem getElem?_retire_self (clock : MasternodeClock) (legacyMNObsolete : Bool) (o : OutPoint)
    (man : MasternodeMan) : (man.retire clock legacyMNObsolete o)[o]? = none := by
  unfold retire
  cases h : man[o]? with
  | none => exact h
  | some mn =>
    simp only [checkAndRemove]
    split_ifs
    · simp
    · rw [Std.ExtTreeMap.getElem?_filter, FMap.get_insert_self]
      simp [removable, Masternode.getActiveState, Masternode.setSpent]

/-- Masternodes are only removed. -/
theorem getElem?_retire_none {o q : OutPoint} (h : man[q]? = none) :
    (man.retire clock legacyMNObsolete o)[q]? = none := by
  by_cases heq : o = q
  · subst heq
    exact getElem?_retire_self _ _ _ _
  · unfold retire
    cases hget : man[o]? with
    | none => exact h
    | some mn =>
      simp only [checkAndRemove]
      split_ifs
      · simp
      · rw [Std.ExtTreeMap.getElem?_filter, FMap.get_insert_ne heq, h]
        rfl

end MasternodeMan

end KmushiCoin
