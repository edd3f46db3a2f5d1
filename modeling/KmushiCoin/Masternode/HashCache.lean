import KmushiCoin.Chain.ActivateSpec
import KmushiCoin.Masternode.Payments

/-!
# KmushiCoin.Masternode.HashCache

**What the masternode and the budget manager know of the active chain**: their best heights, and the
ring of 200 block hashes of the masternode manager.

* `connectTip` and `disconnectTip` are what the two functions do to the managers. Since V5.3 a
  connected block sets the best heights; a disconnected block never does.
* A disconnected block leaves its slot of the ring to the block 200 heights below it.
* `Cached` is what the ring is for: it has the hashes of the last 200 blocks of the active chain.
  `cached_of_follows` is that for a whole list of events.
-/

namespace KmushiCoin

open ParentTree

/-- `CACHED_BLOCK_HASHES`. -/
def cachedBlockHashes : Nat := 200

/-- The best heights of the two managers, and `cvLastBlockHashes`. -/
structure TierTwo where
  nBestHeight : Int
  budgetBestHeight : Int
  cvLastBlockHashes : Fin cachedBlockHashes → Uint256

/-- The blocks, and the settings of the node. -/
structure NodeEnv (β : Type) extends BlockTree β where
  height_root : ∀ {b : β}, parent b = none → height b = 0
  hash : β → Uint256
  fLiteMode : Bool
  upgradeV5_3 : Int
  maxreorg : Nat

namespace TierTwo

/-- The place of a height in the ring. -/
def slot (nHeight : Nat) : Fin cachedBlockHashes :=
  ⟨nHeight % cachedBlockHashes, Nat.mod_lt _ (by decide)⟩

/-- `CyclingVector::Set`. -/
def set (m : TierTwo) (nHeight : Nat) (value : Uint256) : TierTwo :=
  { m with cvLastBlockHashes := Function.update m.cvLastBlockHashes (slot nHeight) value }

/-- `SetBestHeight` of both managers. -/
def setBestHeight (m : TierTwo) (nHeight : Int) : TierTwo :=
  { m with nBestHeight := nHeight, budgetBestHeight := nHeight }

/-- Heights less than 200 apart have different slots. -/
theorem slot_ne {h h' : Nat} (hlt : h < h') (hle : h' < h + cachedBlockHashes) :
    slot h ≠ slot h' := by
  intro heq
  have hmod : h % 200 = h' % 200 := congrArg Fin.val heq
  have : cachedBlockHashes = 200 := rfl
  omega

@[simp] theorem set_slot (m : TierTwo) (h : Nat) (v : Uint256) :
    (m.set h v).cvLastBlockHashes (slot h) = v :=
  Function.update_self ..

theorem set_slot_of_ne {m : TierTwo} {h h' : Nat} {v : Uint256} (hne : slot h' ≠ slot h) :
    (m.set h v).cvLastBlockHashes (slot h') = m.cvLastBlockHashes (slot h') :=
  Function.update_of_ne hne ..

end TierTwo

open TierTwo

namespace NodeEnv

variable {β : Type} (env : NodeEnv β)

def cacheBlockHash (m : TierTwo) (b : β) : TierTwo := m.set (env.height b) (env.hash b)

def uncacheBlockHash (m : TierTwo) (b : β) : TierTwo := m.set (env.height b) 0

/-- Whether V5.3 is active at a height. -/
def isV5_3 (nHeight : Nat) : Bool := networkUpgradeActive nHeight env.upgradeV5_3

/-- What `ConnectTip` does to the managers. -/
def connectTip (m : TierTwo) (pindexNew : β) : TierTwo :=
  env.cacheBlockHash
    (if !env.fLiteMode && env.isV5_3 (env.height pindexNew) then
      m.setBestHeight (env.height pindexNew) else m)
    pindexNew

/-- What `DisconnectTip` does to the managers. -/
def disconnectTip (m : TierTwo) (pindexDelete : β) : TierTwo :=
  if cachedBlockHashes ≤ env.height pindexDelete then
    (env.ancestor pindexDelete (env.height pindexDelete - cachedBlockHashes)).elim m
      (env.cacheBlockHash m)
  else env.uncacheBlockHash m pindexDelete

def onEvent (m : TierTwo) : ChainEvent β → TierTwo
  | .connected b => env.connectTip m b
  | .disconnected b => env.disconnectTip m b
  | .refused _ => m

/-- `GetHashAtHeight`, with the tip of `chainActive`. -/
def getHashAtHeight (m : TierTwo) (tip : β) (nHeight : Int) : Outcome Uint256 :=
  if nHeight < 0 then .ok 0
  else if m.nBestHeight < nHeight then .ok 0
  else if m.nBestHeight - cachedBlockHashes < nHeight then
    .ok (m.cvLastBlockHashes (slot nHeight.toNat))
  else
    match env.ancestor tip nHeight.toNat with
    | none => .error (.abort "chainActive[nHeight]")
    | some b => .ok (env.hash b)

/-- The managers at the start: `SetBestHeight` and `LoadBlockHashesCache`. -/
def loadManagers (tip : β) : TierTwo :=
  ((env.path tip).take cachedBlockHashes).foldl env.cacheBlockHash
    ⟨env.height tip, env.height tip, fun _ => 0⟩

/-! ### The ring -/

/-- The ring has the hashes of the last 200 blocks. -/
def Cached (m : TierTwo) (tip : β) : Prop :=
  ∀ b ∈ env.path tip, env.height tip < env.height b + cachedBlockHashes →
    m.cvLastBlockHashes (slot (env.height b)) = env.hash b

variable {env} {m : TierTwo} {tip b p : β}

theorem Cached.connectTip (h : env.Cached m tip) (hb : env.parent b = some tip) :
    env.Cached (env.connectTip m b) b := by
  unfold NodeEnv.connectTip cacheBlockHash
  have hheight := env.height_parent hb
  intro a ha hlt
  rcases mem_path_iff.mp ha with rfl | ⟨p, hp, hmem⟩
  · exact set_slot ..
  · obtain rfl := Option.mem_unique hp hb
    have hle := height_le_of_mem hmem
    rw [set_slot_of_ne (slot_ne (by omega) hlt), ← h a hmem (by omega)]
    split_ifs <;> rfl

/-- The slot of the disconnected block is the one of the block that comes into the window. -/
theorem Cached.disconnectTip (h : env.Cached m tip) (hp : env.parent tip = some p) :
    env.Cached (env.disconnectTip m tip) p := by
  have hheight := env.height_parent hp
  unfold NodeEnv.disconnectTip
  by_cases hfull : cachedBlockHashes ≤ env.height tip
  · rw [if_pos hfull]
    obtain ⟨r, hr, hroot⟩ := env.exists_root tip
    obtain ⟨c, hc, hctip, -⟩ := exists_mem_path_of_height hr
      (by rw [env.height_root hroot]; exact Nat.zero_le (env.height tip - cachedBlockHashes))
      (Nat.sub_le _ _)
    rw [← hc, ancestor_of_mem hctip, Option.elim_some]
    intro a ha hlt
    have hle := height_le_of_mem ha
    have hatip := mem_path_trans ha (mem_path_of_parent hp)
    unfold cacheBlockHash
    by_cases heq : env.height a = env.height c
    · rw [eq_of_height_eq hatip hctip heq, set_slot]
    · rw [set_slot_of_ne (slot_ne (by omega) (by omega)).symm]
      exact h a hatip (by omega)
  · rw [if_neg hfull]
    intro a ha hlt
    have hle := height_le_of_mem ha
    rw [uncacheBlockHash, set_slot_of_ne (slot_ne (by omega) (by omega))]
    exact h a (mem_path_trans ha (mem_path_of_parent hp)) (by omega)

/-- What the ring gives, with the right best height. -/
theorem getHashAtHeight_of_mem (h : env.Cached m tip) (hbest : m.nBestHeight = env.height tip)
    (hb : b ∈ env.path tip) : env.getHashAtHeight m tip (env.height b) = .ok (env.hash b) := by
  have hle := height_le_of_mem hb
  rw [getHashAtHeight, if_neg (by omega), if_neg (by omega), hbest, Int.toNat_natCast]
  by_cases hnear : (env.height tip : Int) - cachedBlockHashes < env.height b
  · rw [if_pos hnear, h b hb (by omega)]
  · rw [if_neg hnear, ancestor_of_mem hb]

theorem getHashAtHeight_of_lt {nHeight : Int} (hlt : m.nBestHeight < nHeight) :
    env.getHashAtHeight m tip nHeight = .ok 0 := by
  unfold getHashAtHeight
  split_ifs <;> rfl

/-- Caching blocks with slots of their own keeps their hashes. -/
theorem foldl_cacheBlockHash {l : List β}
    (hslots : ∀ a ∈ l, a ≠ b → slot (env.height b) ≠ slot (env.height a))
    (hb : b ∈ l ∨ m.cvLastBlockHashes (slot (env.height b)) = env.hash b) :
    (l.foldl env.cacheBlockHash m).cvLastBlockHashes (slot (env.height b)) =
      env.hash b := by
  induction l generalizing m with
  | nil => simpa using hb
  | cons a l ih =>
    refine ih (fun c hc => hslots c (.tail _ hc)) ?_
    by_cases heq : a = b
    · subst heq
      exact .inr (set_slot ..)
    · rcases hb with hb | hb
      · exact .inl ((List.mem_cons.mp hb).resolve_left (Ne.symm heq))
      · refine .inr ?_
        rwa [cacheBlockHash, set_slot_of_ne (hslots a List.mem_cons_self heq)]

theorem foldl_cacheBlockHash_heights (l : List β) :
    (l.foldl env.cacheBlockHash m).nBestHeight = m.nBestHeight ∧
    (l.foldl env.cacheBlockHash m).budgetBestHeight = m.budgetBestHeight := by
  induction l generalizing m with
  | nil => exact ⟨rfl, rfl⟩
  | cons a l ih => exact ih

theorem cached_loadManagers (env : NodeEnv β) (tip : β) : env.Cached (env.loadManagers tip) tip := by
  intro b hb hlt
  have hmem := mem_take_path_iff.mpr ⟨hb, hlt⟩
  refine foldl_cacheBlockHash (fun a ha hne heq => ?_) (.inl hmem)
  obtain ⟨hapath, halt⟩ := mem_take_path_iff.mp ha
  have hale := height_le_of_mem hapath
  have hble := height_le_of_mem hb
  rcases Nat.lt_trichotomy (env.height a) (env.height b) with hless | hsame | hgreater
  · exact slot_ne hless (by omega) heq.symm
  · exact hne (eq_of_height_eq hapath hb hsame)
  · exact slot_ne hgreater (by omega) heq

end NodeEnv

/-! ### Events -/

namespace NodeEnv

variable {β : Type} {env : NodeEnv β} {m : TierTwo} {x y : β} {events : List (ChainEvent β)}

/-- **The ring follows the active chain.** -/
theorem cached_of_follows (h : env.Follows x events y) (hx : env.Cached m x) :
    env.Cached (events.foldl env.onEvent m) y := by
  induction h generalizing m with
  | nil => exact hx
  | connected hb _ ih => exact ih (hx.connectTip hb)
  | disconnected hp _ ih => exact ih (hx.disconnectTip hp)
  | refused _ ih => exact ih hx

/-! ### The best heights -/

/-- Every block that was disconnected is followed by one that was connected. -/
def Settles : List (ChainEvent β) → Prop
  | [] => True
  | .disconnected _ :: events => (∃ c, .connected c ∈ events) ∧ Settles events
  | .connected _ :: events => Settles events
  | .refused _ :: events => Settles events

theorem settles_of_none (h : ∀ b, .disconnected b ∉ events) : Settles events := by
  induction events with
  | nil => trivial
  | cons e events ih =>
    have htail : Settles events := ih fun b hb => h b (.tail _ hb)
    cases e with
    | connected b => exact htail
    | disconnected b => exact absurd (.head _) (h b)
    | refused b => exact htail

/-- What is settled, or is settled by a block that is connected later. -/
theorem Settles.append {more} (hmore : Settles more)
    (h : Settles events ∨ ∃ c, .connected c ∈ more) : Settles (events ++ more) := by
  induction events with
  | nil => exact hmore
  | cons e events ih =>
    cases e with
    | connected b => exact ih h
    | refused b => exact ih h
    | disconnected b =>
      rcases h with ⟨⟨c, hc⟩, htail⟩ | ⟨c, hc⟩
      · exact ⟨⟨c, List.mem_append_left _ hc⟩, ih (.inl htail)⟩
      · exact ⟨⟨c, List.mem_append_right _ hc⟩, ih (.inr ⟨c, hc⟩)⟩

/-- Without a connected block the tip stays. -/
theorem eq_of_follows (h : env.Follows x events y) (hsettles : Settles events)
    (hnone : ∀ c, .connected c ∉ events) : y = x := by
  induction h with
  | nil => rfl
  | connected _ _ _ => exact absurd (.head _) (hnone _)
  | disconnected _ _ _ =>
    obtain ⟨⟨c, hc⟩, -⟩ := hsettles
    exact absurd (.tail _ hc) (hnone c)
  | refused _ ih => exact ih hsettles fun c hc => hnone c (.tail _ hc)

/-- Since V5.3 the heights are those of the last block that was connected. -/
theorem heights_of_follows (hlite : env.fLiteMode = false)
    (h : env.Follows x events y) (hsettles : Settles events) (hv : env.isV5_3 (env.height y) = true)
    (hx : m.nBestHeight = env.height x ∧ m.budgetBestHeight = env.height x ∨
      ∃ c, .connected c ∈ events) : (events.foldl env.onEvent m).nBestHeight = env.height y ∧
    (events.foldl env.onEvent m).budgetBestHeight = env.height y := by
  induction h generalizing m with
  | nil => simpa using hx
  | @connected x b y events hb hrest ih =>
    refine ih hsettles hv ?_
    by_cases hmore : ∃ c, .connected c ∈ events
    · exact .inr hmore
    · obtain rfl : y = b := eq_of_follows hrest hsettles fun c hc => hmore ⟨c, hc⟩
      exact .inl (by simp [onEvent, connectTip, cacheBlockHash, hlite, hv, setBestHeight, TierTwo.set])
  | disconnected hp hrest ih => exact ih hsettles.2 hv (.inr hsettles.1)
  | refused hrest ih => exact ih hsettles hv (by simpa [onEvent] using hx)

end NodeEnv

end KmushiCoin
