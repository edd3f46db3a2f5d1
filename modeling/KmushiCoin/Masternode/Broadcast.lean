import KmushiCoin.Coins.View
import KmushiCoin.Evo.Serialization
import KmushiCoin.Masternode.Man
import KmushiCoin.Masternode.PaymentChecks

/-!
# KmushiCoin.Masternode.Broadcast

The **announcements of legacy masternodes**: the `mnb` messages, the `mnp` pings, and the list of
masternodes that they build up.

* A broadcast goes through three checks that read three different things: `CheckAndUpdate` reads
  the message and the list, `IsInputAssociatedWithPubkey` the transaction that the collateral is
  an output of, `CheckInputsAndAdd` the unspent coin at the collateral.
* The signature covers the address, the time, both keys and the protocol version. It does **not
  cover the collateral**, and the hash under which a broadcast is remembered covers the time and
  the collateral key only.
* An entry of the list is added by `Add`, changed by `UpdateFromNewBroadcast` and by a ping, and
  removed when a broadcast replaces it. `Keeps` says that nothing but an addition brings in a
  collateral or changes its key.

Relaying, the addresses of peers and the counters of the synchronization are left out. Times are
exact integers.
-/

namespace KmushiCoin

open Codec (Bytes)

abbrev PubKey : Type := Bytes

/-- `GetScriptForDestination` of a key: `OP_DUP OP_HASH160 <20 bytes> OP_EQUALVERIFY OP_CHECKSIG`. -/
def Script.payToKeyID (keyID : KeyID) : Script := [0x76, 0xa9, 0x14] ++ putKeyID keyID ++ [0x88, 0xac]

/-! ### Messages -/

structure MasternodePing where
  vin : TxIn
  blockHash : Uint256
  sigTime : Int
  nMessVersion : MessageVersion
  vchSig : Bytes
  deriving Repr, DecidableEq

/-- `CMasternodeBroadcast`: the fields of `CMasternode` that are sent. -/
structure MasternodeBroadcast where
  vin : TxIn
  addr : Service
  /-- `addr.IsAddrV1Compatible()`. -/
  addrV1Compatible : Bool
  pubKeyCollateralAddress : PubKey
  pubKeyMasternode : PubKey
  sigTime : Int
  vchSig : Bytes
  protocolVersion : Int32
  lastPing : MasternodePing
  nMessVersion : MessageVersion
  deriving Repr, DecidableEq

/-- `CMasternode`, an entry of the list. -/
structure LegacyMasternode extends MasternodeBroadcast where
  fCollateralSpent : Bool := false
  deriving Repr, DecidableEq

/-- What a signature is made over. -/
inductive SignedMasternodeData
  /-- `CMasternode::GetSignatureHash`. -/
  | broadcastHash (nMessVersion : MessageVersion) (addr : Service) (sigTime : Int)
      (pubKeyCollateralAddress pubKeyMasternode : PubKey) (protocolVersion : Int32)
  /-- `CMasternode::GetStrMessage`. -/
  | broadcastMessage (addr : Service) (sigTime : Int) (collateralKeyID masternodeKeyID : KeyID)
      (protocolVersion : Int32)
  /-- `CMasternodePing::GetHash`. -/
  | pingHash (vin : TxIn) (blockHash : Uint256) (sigTime : Int)
  /-- `CMasternodePing::GetStrMessage`. -/
  | pingMessage (vin : TxIn) (blockHash : Uint256) (sigTime : Int)
  deriving Repr, DecidableEq

/-- What is hashed and verified by code that is not modelled. -/
structure BroadcastCrypto where
  getID : PubKey → KeyID
  /-- The hash of a time and a collateral key. -/
  broadcastHash : Int → PubKey → Uint256
  /-- The hash of an input, of a block hash unless the version is old, and of a time. -/
  pingHash : TxIn → Option Uint256 → Int → Uint256
  verify : KeyID → SignedMasternodeData → Bytes → Bool

/-- What a node knows when a message arrives. -/
structure BroadcastContext where
  /-- `mnodeman.GetBestHeight()`. -/
  nBestHeight : Int
  adjustedTime : Int
  /-- `ActiveProtocol()`. -/
  activeProtocol : Int32
  /-- `mnodeman.GetHashAtHeight`. -/
  getHashAtHeight : Int → Uint256
  /-- `GetTransaction`, of a transaction with a hash. -/
  getTransaction : Uint256 → Option Transaction
  /-- `pcoinsTip`. -/
  pcoinsTip : FMap OutPoint Coin
  /-- The time of the active chain's block at a height. -/
  blockTime : Int → Int
  /-- `LegacyMNObsolete()`. -/
  legacyMNObsolete : Bool
  /-- `GetListAtChainTip().HasMNByCollateral`. -/
  hasMNByCollateral : OutPoint → Bool
  /-- `masternodeSync.IsSynced()`. -/
  isSynced : Bool

/-- The part of `CMasternodeMan` that the messages read and write. -/
structure MasternodeLists where
  mapMasternodes : FMap OutPoint LegacyMasternode := ∅
  mapSeenMasternodeBroadcast : FMap Uint256 MasternodeBroadcast := ∅
  mapSeenMasternodePing : FMap Uint256 MasternodePing := ∅

/-! ### Constants of the networks -/

/-- What the networks differ in. -/
structure MasternodeParams extends NetworkParams where
  nMNCollateralAmt : Int

namespace MasternodeParams

variable (params : MasternodeParams)

def masternodeMinPingSeconds : Int := if params.isRegTestNet then 90 else 10 * 60

def masternodeBroadcastSeconds : Int := if params.isRegTestNet then 25 else 5 * 60

def masternodeCollateralMinConf : Int := if params.isRegTestNet then 1 else 15

def masternodeExpirationSeconds : Int := if params.isRegTestNet then 12 * 60 else 120 * 60

def masternodeRemovalSeconds : Int := if params.isRegTestNet then 13 * 60 else 130 * 60

/-- `NetworkIDString() == CBaseChainParams::MAIN`. -/
def isMain : Bool := !params.isRegTestNet && !params.isTestnet

end MasternodeParams

def mnPingDepth : Int := 12

section
variable (params : MasternodeParams) (crypto : BroadcastCrypto) (ctx : BroadcastContext)

namespace BroadcastContext

def isV5_3 : Bool := networkUpgradeActive ctx.nBestHeight params.upgradeV5_3

def getMaxTimeWindow : Int :=
  ctx.adjustedTime + (if ctx.isV5_3 params then 60 * 2 else 60 * 60)

def clock : MasternodeClock where
  adjustedTime := ctx.adjustedTime
  removalSeconds := params.masternodeRemovalSeconds
  expirationSeconds := params.masternodeExpirationSeconds
  minPingSeconds := params.masternodeMinPingSeconds
  activeProtocol := ctx.activeProtocol
  rejectV0 := ctx.isV5_3 params

/-- `AccessCoin`: the coin, or a spent one. -/
def accessCoin (o : OutPoint) : Coin := ctx.pcoinsTip[o]?.getD Coin.empty

/-- `IsWithinDepth`, with the blocks from the best height down. -/
def isWithinDepth (nHash : Uint256) (depth : Int) : Bool :=
  if nHash == 0 || decide (depth < 0) || decide (200 ≤ depth) then false
  else
    let nStopHeight := max 0 (ctx.nBestHeight - depth)
    (List.range (ctx.nBestHeight - nStopHeight + 1).toNat).any fun i =>
      ctx.getHashAtHeight (ctx.nBestHeight - i) == nHash

end BroadcastContext

/-! ### Entries -/

namespace MasternodePing

def isNull (mnp : MasternodePing) : Bool := mnp.blockHash == 0 || mnp.vin.prevout == OutPoint.null

def getHash (mnp : MasternodePing) : Uint256 :=
  crypto.pingHash mnp.vin
    (if mnp.nMessVersion == .hash then some mnp.blockHash else none) mnp.sigTime

def checkSignature (mnp : MasternodePing) (keyID : KeyID) : Bool :=
  crypto.verify keyID
    (match mnp.nMessVersion with
      | .hash => .pingHash mnp.vin mnp.blockHash mnp.sigTime
      | .strmess => .pingMessage mnp.vin mnp.blockHash mnp.sigTime)
    mnp.vchSig

end MasternodePing

namespace MasternodeBroadcast

variable (mnb : MasternodeBroadcast)

def getHash : Uint256 :=
  crypto.broadcastHash mnb.sigTime mnb.pubKeyCollateralAddress

def checkSignature : Bool :=
  crypto.verify (crypto.getID mnb.pubKeyCollateralAddress)
    (match mnb.nMessVersion with
      | .hash =>
        .broadcastHash mnb.nMessVersion mnb.addr mnb.sigTime mnb.pubKeyCollateralAddress
          mnb.pubKeyMasternode mnb.protocolVersion
      | .strmess =>
        .broadcastMessage mnb.addr mnb.sigTime (crypto.getID mnb.pubKeyCollateralAddress)
          (crypto.getID mnb.pubKeyMasternode) mnb.protocolVersion)
    mnb.vchSig

/-- Whether **some output** of the collateral's transaction has the collateral amount and pays
the collateral key. -/
def isInputAssociatedWithPubkey : Bool :=
  match ctx.getTransaction mnb.vin.prevout.hash with
  | none => false
  | some txVin =>
    txVin.vout.any fun out =>
      decide (out.nValue = params.nMNCollateralAmt) &&
        decide (out.scriptPubKey =
          Script.payToKeyID (crypto.getID mnb.pubKeyCollateralAddress))

end MasternodeBroadcast

namespace LegacyMasternode

variable (mn : LegacyMasternode)

/-- The part of an entry that its state depends on. -/
def toMasternode : Masternode where
  sigTime := mn.sigTime
  lastPing := if mn.lastPing.isNull then none else some mn.lastPing.sigTime
  fCollateralSpent := mn.fCollateralSpent
  protocolVersion := mn.protocolVersion
  nMessVersion := mn.nMessVersion

def getActiveState (mn : LegacyMasternode) : Masternode.State :=
  mn.toMasternode.getActiveState (ctx.clock params)

def isEnabled : Bool := mn.getActiveState params ctx == .enabled

def isAvailableState : Bool :=
  mn.getActiveState params ctx == .enabled || mn.getActiveState params ctx == .preEnabled

def isBroadcastedWithin (seconds : Int) : Bool :=
  decide (ctx.adjustedTime - mn.sigTime < seconds)

/-- `IsPingedWithin` at a given time; `-1` stands for the present. -/
def isPingedWithin (seconds now : Int) : Bool :=
  !mn.lastPing.isNull &&
    decide ((if now = -1 then ctx.adjustedTime else now) - mn.lastPing.sigTime < seconds)

end LegacyMasternode

/-! ### Pings -/

namespace MasternodeLists

/-- `SetLastPing` on an entry, with the copies of the ping in the seen maps. -/
def setLastPing (mnp : MasternodePing) (pmn : LegacyMasternode) (st : MasternodeLists) :
    MasternodeLists where
  mapMasternodes := st.mapMasternodes.insert mnp.vin.prevout { pmn with lastPing := mnp }
  mapSeenMasternodePing := st.mapSeenMasternodePing.insertIfNew (mnp.getHash crypto) mnp
  mapSeenMasternodeBroadcast :=
    st.mapSeenMasternodeBroadcast.alter (pmn.toMasternodeBroadcast.getHash crypto)
      (Option.map fun mnb => { mnb with lastPing := mnp })

end MasternodeLists

/-- The checks of a ping that do not look at the list. -/
def MasternodePing.basicChecks (mnp : MasternodePing) : Option Int :=
  if ctx.getMaxTimeWindow params < mnp.sigTime then some 30
  else if mnp.sigTime ≤ ctx.adjustedTime - 60 * 60 then some 30
  else if mnp.nMessVersion != .hash && ctx.isV5_3 params then some 30
  else if !ctx.isWithinDepth mnp.blockHash (2 * mnPingDepth) then some 33
  else none

/-- `CMasternodePing::CheckAndUpdate`: whether it succeeds, with the `nDos` that is left. -/
def MasternodePing.checkAndUpdate (mnp : MasternodePing) (nDos : Int)
    (fRequireAvailable fCheckSigTimeOnly : Bool) (st : MasternodeLists) :
    (Bool × Int) × MasternodeLists :=
  match mnp.basicChecks params ctx with
  | some nDos => ((false, nDos), st)
  | none =>
    match st.mapMasternodes[mnp.vin.prevout]? with
    | none => ((fCheckSigTimeOnly, nDos), st)
    | some pmn =>
      let isSignatureValid := mnp.checkSignature crypto (crypto.getID pmn.pubKeyMasternode)
      if fCheckSigTimeOnly then
        if !isSignatureValid then ((false, 33), st) else ((true, nDos), st)
      else if pmn.protocolVersion < ctx.activeProtocol then ((false, nDos), st)
      else if fRequireAvailable && !pmn.isAvailableState params ctx then ((false, 20), st)
      else if pmn.isPingedWithin ctx (params.masternodeMinPingSeconds - 60) mnp.sigTime then
        ((false, nDos), st)
      else if !isSignatureValid then ((false, 33), st)
      else
        (({ pmn with lastPing := mnp }.isEnabled params ctx, nDos),
          st.setLastPing crypto mnp pmn)

/-! ### Broadcasts -/

namespace MasternodeBroadcast

variable (mnb : MasternodeBroadcast)

/-- The fields that `UpdateFromNewBroadcast` takes from a broadcast. -/
def updateFields (pmn : LegacyMasternode) : LegacyMasternode :=
  { pmn with
    nMessVersion := mnb.nMessVersion
    pubKeyMasternode := mnb.pubKeyMasternode
    pubKeyCollateralAddress := mnb.pubKeyCollateralAddress
    sigTime := mnb.sigTime
    vchSig := mnb.vchSig
    protocolVersion := mnb.protocolVersion
    addr := mnb.addr
    addrV1Compatible := mnb.addrV1Compatible }

/-- The end of `UpdateFromNewBroadcast`, which also takes the ping. -/
def updatePing (st : MasternodeLists) : MasternodeLists :=
  { st with
    mapMasternodes := st.mapMasternodes.alter mnb.vin.prevout
      (Option.map fun mn => { mn with lastPing := mnb.lastPing })
    mapSeenMasternodePing :=
      st.mapSeenMasternodePing.insertIfNew (mnb.lastPing.getHash crypto) mnb.lastPing }

/-- `UpdateFromNewBroadcast` of the entry at the broadcast's collateral. -/
def updateFromNewBroadcast (pmn : LegacyMasternode) (st : MasternodeLists) : MasternodeLists :=
  if pmn.sigTime < mnb.sigTime then
    let st₁ := { st with
      mapMasternodes := st.mapMasternodes.insert mnb.vin.prevout (mnb.updateFields pmn) }
    if mnb.lastPing.isNull then mnb.updatePing crypto st₁
    else
      -- the ping may belong to another entry, and is then set there as well
      let checked := mnb.lastPing.checkAndUpdate params crypto ctx 0 false false st₁
      if checked.1.1 then mnb.updatePing crypto checked.2 else checked.2
  else st

/-- The checks of a broadcast before its ping: what `CheckAndUpdate` reports for the first one
that fails. -/
def basicChecks : Option Int :=
  if ctx.getMaxTimeWindow params < mnb.sigTime then some 1
  else if mnb.nMessVersion != .hash && ctx.isV5_3 params then some 30
  else if mnb.protocolVersion < ctx.activeProtocol then some 0
  else if (Script.payToKeyID (crypto.getID mnb.pubKeyCollateralAddress)).length ≠ 25 then some 100
  else if (Script.payToKeyID (crypto.getID mnb.pubKeyMasternode)).length ≠ 25 then some 100
  else if mnb.vin.scriptSig ≠ [] then some 0
  else if !mnb.checkSignature crypto then some (if ctx.isSynced then 100 else 5)
  else if params.isMain != (mnb.addr.port == 36599) then some 0
  else none

/-- `lastPing.IsNull() || !lastPing.CheckAndUpdate(nDos, nChainHeight, false, true)`, negated. -/
def checkPing (st : MasternodeLists) : Bool × Int :=
  if mnb.lastPing.isNull then (false, 0)
  else (mnb.lastPing.checkAndUpdate params crypto ctx 0 false true st).1

/-- `CMasternodeBroadcast::CheckAndUpdate`. -/
def checkAndUpdate (st : MasternodeLists) : (Bool × Int) × MasternodeLists :=
  match mnb.basicChecks params crypto ctx with
  | some nDos => ((false, nDos), st)
  | none =>
    let ping := mnb.checkPing params crypto ctx st
    if !ping.1 then ((false, ping.2), st)
    else
      match st.mapMasternodes[mnb.vin.prevout]? with
      | none => ((true, 0), st)
      | some pmn =>
        if mnb.sigTime ≤ pmn.sigTime then ((false, 0), st)
        else if !pmn.isEnabled params ctx then ((true, 0), st)
        else if pmn.pubKeyCollateralAddress = mnb.pubKeyCollateralAddress ∧
            pmn.isBroadcastedWithin ctx params.masternodeBroadcastSeconds = false then
          ((true, 0), mnb.updateFromNewBroadcast params crypto ctx pmn st)
        else ((true, 0), st)

end MasternodeBroadcast

namespace MasternodeLists

/-- `CMasternodeMan::Add`. -/
def add (mn : LegacyMasternode) (st : MasternodeLists) : MasternodeLists :=
  if ctx.legacyMNObsolete then st
  else if ctx.hasMNByCollateral mn.vin.prevout then st
  else if !mn.isAvailableState params ctx then st
  else { st with mapMasternodes := st.mapMasternodes.insertIfNew mn.vin.prevout mn }

end MasternodeLists

namespace MasternodeBroadcast

/-- `CMasternodeBroadcast::CheckInputsAndAdd`. -/
def checkInputsAndAdd (mnb : MasternodeBroadcast) (st : MasternodeLists) :
    (Bool × Int) × MasternodeLists :=
  let ping := mnb.checkPing params crypto ctx st
  if !ping.1 then ((false, ping.2), st)
  else if (st.mapMasternodes[mnb.vin.prevout]?.any (·.isEnabled params ctx)) then ((true, 0), st)
  else
    -- an entry that is not enabled makes way
    let st₁ := { st with mapMasternodes := st.mapMasternodes.erase mnb.vin.prevout }
    let collateralUtxo := ctx.accessCoin mnb.vin.prevout
    if collateralUtxo.isSpent then ((false, 0), st₁)
    else
      let utxoHeight : Int := collateralUtxo.nHeight.toNat
      if ctx.nBestHeight - utxoHeight + 1 < params.masternodeCollateralMinConf then
        ((false, 0),
          { st₁ with
            mapSeenMasternodeBroadcast := st₁.mapSeenMasternodeBroadcast.erase (mnb.getHash crypto) })
      else if mnb.sigTime < ctx.blockTime (utxoHeight + params.masternodeCollateralMinConf - 1) then
        ((false, 0), st₁)
      else ((true, 0), st₁.add params ctx { mnb with })

end MasternodeBroadcast

namespace MasternodeLists

/-- `CMasternodeMan::ProcessMNBroadcast`: the misbehaviour of the sender, and the lists. -/
def processMNBroadcast (mnb : MasternodeBroadcast) (st : MasternodeLists) :
    Int × MasternodeLists :=
  let mnbHash := mnb.getHash crypto
  if st.mapSeenMasternodeBroadcast.contains mnbHash then (0, st)
  else if !mnb.addrV1Compatible && !ctx.isV5_3 params then (33, st)
  else
    let checked := mnb.checkAndUpdate params crypto ctx st
    if !checked.1.1 then (checked.1.2, checked.2)
    else if !mnb.isInputAssociatedWithPubkey params crypto ctx then (33, checked.2)
    else
      let st₁ := { checked.2 with
        mapSeenMasternodeBroadcast :=
          checked.2.mapSeenMasternodeBroadcast.insertIfNew mnbHash mnb }
      let added := mnb.checkInputsAndAdd params crypto ctx st₁
      (if added.1.1 then 0 else added.1.2, added.2)

/-- `CMasternodeMan::ProcessMNPing`. -/
def processMNPing (mnp : MasternodePing) (st : MasternodeLists) : Int × MasternodeLists :=
  if st.mapSeenMasternodePing.contains (mnp.getHash crypto) then (0, st)
  else
    let checked := mnp.checkAndUpdate params crypto ctx 0 true false st
    (if checked.1.1 then 0 else checked.1.2, checked.2)

end MasternodeLists

end

/-! ### Runs -/

/-- A message, with what the node knows when it arrives. -/
inductive MasternodeMessage
  | mnb (ctx : BroadcastContext) (mnb : MasternodeBroadcast)
  | mnp (ctx : BroadcastContext) (mnp : MasternodePing)

namespace MasternodeLists

variable (params : MasternodeParams) (crypto : BroadcastCrypto)

def step (st : MasternodeLists) : MasternodeMessage → MasternodeLists
  | .mnb ctx mnb => (st.processMNBroadcast params crypto ctx mnb).2
  | .mnp ctx mnp => (st.processMNPing params crypto ctx mnp).2

/-- The lists after some messages, from empty ones. -/
def run (messages : List MasternodeMessage) : MasternodeLists := messages.foldl (step params crypto) {}

end MasternodeLists

/-! ### What a message can do to the list -/

namespace MasternodeLists

/-- Every entry was there, with the same value of `f`. -/
def KeepsBy {α : Type} (f : LegacyMasternode → α) (st st' : MasternodeLists) : Prop :=
  ∀ (o : OutPoint) (e' : LegacyMasternode), st'.mapMasternodes[o]? = some e' →
    ∃ e, st.mapMasternodes[o]? = some e ∧ f e' = f e

namespace KeepsBy

variable {α : Type} {f : LegacyMasternode → α} {st st' st'' : MasternodeLists}

theorem refl (st : MasternodeLists) : KeepsBy f st st := fun _ e h => ⟨e, h, rfl⟩

theorem trans (h : KeepsBy f st st') (h' : KeepsBy f st' st'') : KeepsBy f st st'' := by
  intro o e'' he''
  obtain ⟨e', he', hkey'⟩ := h' o e'' he''
  obtain ⟨e, he, hkey⟩ := h o e' he'
  exact ⟨e, he, hkey'.trans hkey⟩

/-- An entry is written over by one with the same value. -/
theorem insert {o} {e e'} (he : st.mapMasternodes[o]? = some e)
    (hkey : f e' = f e) (h : st'.mapMasternodes = st.mapMasternodes.insert o e') :
    KeepsBy f st st' := by
  intro q d hd
  rw [h] at hd
  rcases FMap.of_get_insert hd with ⟨rfl, rfl⟩ | ⟨-, hd⟩
  · exact ⟨e, he, hkey⟩
  · exact ⟨d, hd, rfl⟩

end KeepsBy

end MasternodeLists

section
variable (params : MasternodeParams) (crypto : BroadcastCrypto) (ctx : BroadcastContext)

open MasternodeLists (KeepsBy)

section
variable {α : Type} {f : LegacyMasternode → α}
  (hf : ∀ (e : LegacyMasternode) (mnp : MasternodePing), f { e with lastPing := mnp } = f e)
include hf

theorem MasternodePing.checkAndUpdate_keeps (mnp : MasternodePing) (nDos : Int)
    (fRequireAvailable fCheckSigTimeOnly : Bool) (st : MasternodeLists) : KeepsBy f st
      (mnp.checkAndUpdate params crypto ctx nDos fRequireAvailable fCheckSigTimeOnly st).2 := by
  unfold checkAndUpdate
  cases mnp.basicChecks params ctx with
  | some nDos => exact .refl st
  | none =>
    cases hfind : st.mapMasternodes[mnp.vin.prevout]? with
    | none => exact .refl st
    | some pmn =>
      dsimp only
      split_ifs
      all_goals first
        | exact .refl st
        | exact .insert hfind (hf pmn mnp) rfl

namespace MasternodeBroadcast

theorem updatePing_keeps (mnb : MasternodeBroadcast) (st : MasternodeLists) :
    KeepsBy f st (mnb.updatePing crypto st) := by
  intro o e' he'
  simp only [updatePing, FMap.get_alter] at he'
  split_ifs at he' with ho
  · subst ho
    obtain ⟨e, he, rfl⟩ := Option.map_eq_some_iff.mp he'
    exact ⟨e, he, hf e _⟩
  · exact ⟨e', he', rfl⟩

/-- After its fields an update only takes pings. -/
theorem updateFromNewBroadcast_cases (mnb : MasternodeBroadcast) (pmn : LegacyMasternode)
    (st : MasternodeLists) :
    mnb.updateFromNewBroadcast params crypto ctx pmn st = st ∨ KeepsBy f
        { st with
          mapMasternodes := st.mapMasternodes.insert mnb.vin.prevout (mnb.updateFields pmn) }
        (mnb.updateFromNewBroadcast params crypto ctx pmn st) := by
  unfold updateFromNewBroadcast
  by_cases hnewer : pmn.sigTime < mnb.sigTime
  · rw [if_pos hnewer]
    dsimp only
    have hping := mnb.lastPing.checkAndUpdate_keeps params crypto ctx hf 0 false false
      { st with mapMasternodes := st.mapMasternodes.insert mnb.vin.prevout (mnb.updateFields pmn) }
    split_ifs
    · exact .inr (updatePing_keeps crypto hf mnb _)
    · exact .inr (hping.trans (updatePing_keeps crypto hf mnb _))
    · exact .inr hping
  · rw [if_neg hnewer]
    exact .inl rfl

end MasternodeBroadcast

end

namespace MasternodeBroadcast

variable {mnb : MasternodeBroadcast} {st : MasternodeLists}

/-- **What `CheckAndUpdate` does**: nothing, or it updates the entry of the collateral, which has the
key of the broadcast. -/
theorem checkAndUpdate_cases (mnb : MasternodeBroadcast) (st : MasternodeLists) :
    ((mnb.checkAndUpdate params crypto ctx st).1.1 = true →
      mnb.basicChecks params crypto ctx = none) ∧
    ((mnb.checkAndUpdate params crypto ctx st).2 = st ∨
      (mnb.checkAndUpdate params crypto ctx st).1.1 = true ∧
        ∃ pmn, st.mapMasternodes[mnb.vin.prevout]? = some pmn ∧
          pmn.pubKeyCollateralAddress = mnb.pubKeyCollateralAddress ∧
          (mnb.checkAndUpdate params crypto ctx st).2 =
            mnb.updateFromNewBroadcast params crypto ctx pmn st) := by
  unfold checkAndUpdate
  cases mnb.basicChecks params crypto ctx with
  | some nDos => simp
  | none =>
    refine ⟨fun _ => rfl, ?_⟩
    dsimp only
    by_cases hping : (!(mnb.checkPing params crypto ctx st).1) = true
    · rw [if_pos hping]
      exact .inl rfl
    rw [if_neg hping]
    cases st.mapMasternodes[mnb.vin.prevout]? with
    | none => exact .inl rfl
    | some pmn =>
      dsimp only
      split_ifs with _ _ hsame
      · exact .inl rfl
      · exact .inl rfl
      · exact .inr ⟨rfl, pmn, rfl, hsame.1, rfl⟩
      · exact .inl rfl

/-- The fields that an entry takes over. -/
def fields (mnb : MasternodeBroadcast) :
    Service × PubKey × Int32 × Int × PubKey × MessageVersion :=
  (mnb.addr, mnb.pubKeyMasternode, mnb.protocolVersion, mnb.sigTime, mnb.pubKeyCollateralAddress,
    mnb.nMessVersion)

variable {params crypto ctx} {o : OutPoint} {e' : LegacyMasternode}

/-- `CheckAndUpdate` changes the fields of the broadcast's own entry only, if it has the key. -/
theorem checkAndUpdate_fields
    (he' : (mnb.checkAndUpdate params crypto ctx st).2.mapMasternodes[o]? = some e') :
    (∃ e, st.mapMasternodes[o]? = some e ∧ e'.fields = e.fields) ∨
    (o = mnb.vin.prevout ∧ e'.fields = mnb.fields ∧ mnb.basicChecks params crypto ctx = none ∧
      ∃ e, st.mapMasternodes[o]? = some e ∧
        e.pubKeyCollateralAddress = mnb.pubKeyCollateralAddress) := by
  obtain ⟨hbasic, hsame | ⟨hok, pmn, hfind, hkey, hupdate⟩⟩ :=
    mnb.checkAndUpdate_cases params crypto ctx st
  · rw [hsame] at he'
    exact .inl ⟨e', he', rfl⟩
  rw [hupdate] at he'
  rcases updateFromNewBroadcast_cases params crypto ctx
    (f := fun e : LegacyMasternode => e.fields) (fun _ _ => rfl) mnb pmn st with heq | hkeeps
  · rw [heq] at he'
    exact .inl ⟨e', he', rfl⟩
  · obtain ⟨e, he, hfields⟩ := hkeeps o e' he'
    dsimp only at he hfields
    rcases FMap.of_get_insert he with ⟨rfl, rfl⟩ | ⟨-, he⟩
    · exact .inr ⟨rfl, hfields, hbasic hok, pmn, hfind, hkey⟩
    · exact .inl ⟨e, he, hfields⟩

variable (params crypto ctx)

/-- **What an addition has checked**: the coin at the collateral is unspent and deep enough, and
the broadcast is not older than the block that made it so. -/
structure Matured (mnb : MasternodeBroadcast) : Prop where
  unspent : (ctx.accessCoin mnb.vin.prevout).isSpent = false
  deep : params.masternodeCollateralMinConf ≤
    ctx.nBestHeight - (ctx.accessCoin mnb.vin.prevout).nHeight.toNat + 1
  recent : ctx.blockTime ((ctx.accessCoin mnb.vin.prevout).nHeight.toNat +
    params.masternodeCollateralMinConf - 1) ≤ mnb.sigTime

/-- Whatever is in the list afterwards was there before, or is what the broadcast says. -/
theorem checkInputsAndAdd_cases (mnb : MasternodeBroadcast) (st : MasternodeLists) {o} {e'}
    (he' : (mnb.checkInputsAndAdd params crypto ctx st).2.mapMasternodes[o]? = some e') :
    st.mapMasternodes[o]? = some e' ∨
      o = mnb.vin.prevout ∧ e' = { mnb with } ∧ mnb.Matured params ctx := by
  dsimp only [checkInputsAndAdd] at he'
  have herase : (st.mapMasternodes.erase mnb.vin.prevout)[o]? = some e' →
      st.mapMasternodes[o]? = some e' := by
    intro h
    rw [FMap.get_erase] at h
    split_ifs at h
    exact h
  split_ifs at he' with _ _ hspent hdeep hrecent
  · exact .inl he'
  · exact .inl he'
  · exact .inl (herase he')
  · exact .inl (herase he')
  · exact .inl (herase he')
  · -- `Add` inserts, or leaves the list as it is
    unfold MasternodeLists.add at he'
    split_ifs at he'
    · exact .inl (herase he')
    · exact .inl (herase he')
    · exact .inl (herase he')
    · rw [FMap.get_insertIfNew] at he'
      split_ifs at he' with hnew
      · refine .inr ⟨hnew.1.symm, (Option.some.inj he').symm, ?_⟩
        exact ⟨by simpa using hspent, by omega, by omega⟩
      · exact .inl (herase he')

end MasternodeBroadcast

namespace MasternodeLists

variable {params crypto ctx} {mnb : MasternodeBroadcast} {st : MasternodeLists} {o : OutPoint}
  {e' : LegacyMasternode}

/-- **The fields of an entry** are kept, or are those of a signed broadcast that names the entry's
collateral: the entry had the key of the broadcast, or is added for a coin that is unspent and deep
enough. -/
theorem processMNBroadcast_inv
    (he' : (st.processMNBroadcast params crypto ctx mnb).2.mapMasternodes[o]? = some e') :
    (∃ e, st.mapMasternodes[o]? = some e ∧ e'.fields = e.fields) ∨
    (o = mnb.vin.prevout ∧ e'.fields = mnb.fields ∧ mnb.basicChecks params crypto ctx = none ∧
      ((∃ e, st.mapMasternodes[o]? = some e ∧
        e.pubKeyCollateralAddress = mnb.pubKeyCollateralAddress) ∨
      mnb.isInputAssociatedWithPubkey params crypto ctx = true ∧ e' = { mnb with } ∧
        mnb.Matured params ctx)) := by
  by_cases hchecked : (mnb.checkAndUpdate params crypto ctx st).2.mapMasternodes[o]? = some e'
  · exact (MasternodeBroadcast.checkAndUpdate_fields hchecked).imp_right
      fun ⟨ho, hfields, hbasic, hold⟩ => ⟨ho, hfields, hbasic, .inl hold⟩
  by_cases hold : st.mapMasternodes[o]? = some e'
  · exact .inl ⟨e', hold, rfl⟩
  dsimp only [processMNBroadcast] at he'
  split_ifs at he' with _ _ hok hassociated
  · exact absurd he' hold
  · exact absurd he' hold
  · exact absurd he' hchecked
  · exact absurd he' hchecked
  -- the broadcast is remembered, and the inputs are checked
  all_goals
    obtain ⟨ho, rfl, hmatured⟩ :=
      (MasternodeBroadcast.checkInputsAndAdd_cases params crypto ctx mnb _ he').resolve_left hchecked
    have hbasic := (mnb.checkAndUpdate_cases params crypto ctx st).1 (by simpa using hok)
    exact .inr ⟨ho, rfl, hbasic, .inr ⟨by simpa using hassociated, rfl, hmatured⟩⟩

theorem step_inv {message} (he' : (st.step params crypto message).mapMasternodes[o]? = some e') :
    (∃ e, st.mapMasternodes[o]? = some e ∧ e'.fields = e.fields) ∨
    (∃ ctx mnb, message = .mnb ctx mnb ∧ o = mnb.vin.prevout ∧ e'.fields = mnb.fields ∧
      mnb.basicChecks params crypto ctx = none ∧
      ((∃ e, st.mapMasternodes[o]? = some e ∧
        e.pubKeyCollateralAddress = mnb.pubKeyCollateralAddress) ∨
      mnb.isInputAssociatedWithPubkey params crypto ctx = true ∧ e' = { mnb with } ∧
        mnb.Matured params ctx)) := by
  cases message with
  | mnb ctx mnb => exact (processMNBroadcast_inv he').imp_right fun hnew => ⟨ctx, mnb, rfl, hnew⟩
  | mnp ctx mnp =>
    have hkeeps : KeepsBy (fun e : LegacyMasternode => e.fields) st
        (st.processMNPing params crypto ctx mnp).2 := by
      unfold processMNPing
      split_ifs
      · exact .refl st
      · exact mnp.checkAndUpdate_keeps params crypto ctx (fun _ _ => rfl) 0 true false st
    exact .inl (hkeeps o e' he')

end MasternodeLists

end

end KmushiCoin
