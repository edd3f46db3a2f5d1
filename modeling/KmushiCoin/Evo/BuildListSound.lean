import KmushiCoin.Evo.BuildListSteps

/-!
# KmushiCoin.Evo.BuildListSound

The lists of a **chain** (`ChainList`): what holds of each of them (`Registry`), and
when `BuildNewListFromBlock` returns for the next block.

The one assertion that a block can reach is the last one of `RemoveMN`: the operator
key of the removed member must not be null, but a revocation makes it null. The
condition `RemovalsKeyed` reads off the previous list and the transactions of the
block whether a removed masternode has its operator key at that point
(`operatorless`). Two more conditions exclude what no real chain reaches: `2 ^ 32`
registrations (the counter that gives the internal ids has 32 bits) and two different
transactions with one hash.
-/

namespace KmushiCoin

open Codec DeterministicMNList Function Transaction List

variable {env : Env}

/-! ### Chains of lists -/

/-- The special transactions of a block pass against the previous block. -/
def SpecialTxsPass (env : Env) (vtx : List Transaction) (prev : PrevIndex) : Prop :=
  ∀ tx ∈ vtx, checkSpecialTx env tx prev = .ok ()

/-- The lists built block by block: `ChainList env txs h l` says that `l` is the list after
blocks with the transactions `txs`, the last one at height `h`. -/
inductive ChainList (env : Env) : List Transaction → Int32 → DeterministicMNList → Prop
  /-- Before the first block the list is empty. -/
  | start (blockHash : Uint256) (h : Int32) : ChainList env [] h ⟨blockHash, -1, 0, ∅, ∅, ∅⟩
  /-- The list of the next block gets the hash of the block. -/
  | next {txs vtx : List Transaction} {prev : PrevIndex} {l' : DeterministicMNList}
      (blockHash : Uint256) : ChainList env txs prev.nHeight prev.mnList →
      SpecialTxsPass env vtx prev → buildNewListFromBlock env vtx prev = .ok l' →
      ChainList env (txs ++ vtx) (prev.nHeight + 1) (l'.setBlockHash blockHash)

instance (env : Env) (vtx : List Transaction) (prev : PrevIndex) :
    Decidable (SpecialTxsPass env vtx prev) :=
  inferInstanceAs (Decidable (∀ tx ∈ vtx, checkSpecialTx env tx prev = .ok ()))

/-- The index of the next block, with the same coins; a block without a list adds none. -/
def nextIndex (env : Env) (prev : PrevIndex) (blockHash : Uint256) (vtx : List Transaction) :
    PrevIndex :=
  match buildNewListFromBlock env vtx prev with
  | .ok l => { prev with nHeight := prev.nHeight + 1, blockHash, mnList := l.setBlockHash blockHash }
  | .error _ => prev

variable {prev : PrevIndex} {vtx : List Transaction} {p : Uint256} {nHeight : Int32}
  {tx : Transaction} {f : DeterministicMNState → DeterministicMNState} {n : Nat}
  {l : DeterministicMNList}

theorem nextIndex_mnList {blockHash} (hok : (buildNewListFromBlock env vtx prev).isOk = true) :
    ∃ l, buildNewListFromBlock env vtx prev = .ok l ∧
      (nextIndex env prev blockHash vtx).mnList = l.setBlockHash blockHash := by
  obtain ⟨l, hr⟩ := exists_ok_of_isOk hok
  exact ⟨l, hr, by simp [nextIndex, hr]⟩

/-- A chain goes on with every block that has a list. -/
theorem ChainList.extend {txs} (h : ChainList env txs prev.nHeight prev.mnList)
    (blockHash : Uint256) (hpass : SpecialTxsPass env vtx prev)
    (hok : (buildNewListFromBlock env vtx prev).isOk = true) :
    ChainList env (txs ++ vtx) (nextIndex env prev blockHash vtx).nHeight
      (nextIndex env prev blockHash vtx).mnList := by
  obtain ⟨l, hr⟩ := exists_ok_of_isOk hok
  simp only [nextIndex, hr]
  exact .next blockHash h hpass hr

/-- The number of registrations. -/
def regCount (txs : List Transaction) : Nat := txs.countP fun tx => tx.nType == .proReg

@[simp] theorem regCount_nil : regCount [] = 0 := rfl

@[simp] theorem regCount_append (txs txs' : List Transaction) :
    regCount (txs ++ txs') = regCount txs + regCount txs' := by
  simp [regCount]

theorem regCount_tail_le (txs : List Transaction) : regCount txs.tail ≤ regCount txs :=
  (tail_sublist txs).countP_le

/-- What holds of every list of a chain, for the transactions `txs` so far and a bound `n`
on the number of registrations. -/
structure Registry (env : Env) (txs : List Transaction) (n : Nat) (l : DeterministicMNList) :
    Prop where
  wf : Wf env.serializeHash l
  /-- The owner key is never null. -/
  owner : ∀ {p : Uint256} {d : DeterministicMN}, l.mnMap[p]? = some d → d.pdmnState.keyIDOwner ≠ 0
  /-- The scripts are empty or pay to a key hash. -/
  scripts : ∀ {p : Uint256} {d : DeterministicMN}, l.mnMap[p]? = some d →
    d.pdmnState.scriptPayout.length ≤ 25 ∧ d.pdmnState.scriptOperatorPayout.length ≤ 25
  /-- The counter is above all ids in use. -/
  ids : ∀ {p : Uint256} {d : DeterministicMN}, l.mnMap[p]? = some d →
    d.internalId.toNat < l.nTotalRegisteredCount.toNat
  total : l.nTotalRegisteredCount.toNat ≤ n
  /-- A member was registered by the transaction with its hash, with its owner key and its
  collateral. -/
  origin : ∀ {p : Uint256} {d : DeterministicMN}, l.mnMap[p]? = some d →
    ∃ tx ∈ txs, tx.hash = p ∧ ∃ pl, getTxPayload getProRegPL tx = some pl ∧
      pl.keyIDOwner = d.pdmnState.keyIDOwner ∧ pl.collateral tx = d.collateralOutpoint

namespace Registry

variable {txs : List Transaction} {n : Nat} {l l' : DeterministicMNList}

theorem empty (blockHash : Uint256) (nHeight : Int32) :
    Registry env [] 0 ⟨blockHash, nHeight, 0, ∅, ∅, ∅⟩ := by
  refine ⟨wf_empty _ _ _, ?_, ?_, ?_, by simp, ?_⟩ <;> intro p d hd <;> simp at hd

section
variable (h : Registry env txs n l)
include h

theorem mono {txs'} {n' : Nat} (htxs : ∀ tx ∈ txs, tx ∈ txs') (hn : n ≤ n')
    : Registry env txs' n' l := by
  refine ⟨h.wf, h.owner, h.scripts, h.ids, h.total.trans hn, fun hd => ?_⟩
  obtain ⟨tx, htx, rest⟩ := h.origin hd
  exact ⟨tx, htxs tx htx, rest⟩

/-- The internal ids number the members. -/
theorem length_members_le : l.members.length ≤ l.nTotalRegisteredCount.toNat := by
  have hnodup : ((l.members.map DeterministicMN.internalId).map UInt64.toNat).Nodup :=
    h.wf.nodup_ids.map fun _ _ heq => UInt64.toNat_inj.mp heq
  have hsub : (l.members.map DeterministicMN.internalId).map UInt64.toNat ⊆
      range l.nTotalRegisteredCount.toNat := by
    intro i hi
    rw [map_map] at hi
    obtain ⟨d, hd, rfl⟩ := mem_map.mp hi
    exact mem_range.mpr (h.ids (h.wf.mem_members.mp hd))
  simpa using (hnodup.subperm hsub).length_le

theorem length_members_lt : l.members.length < 2 ^ 64 :=
  lt_of_le_of_lt h.length_members_le
    (lt_trans (UInt32.toNat_lt l.nTotalRegisteredCount) (by decide))

/-- The scripts are short enough to be stored. -/
theorem scriptsFit : ∀ d ∈ l.members, d.pdmnState.ScriptsFit := by
  intro d hd
  obtain ⟨hpayout, hoperator⟩ := h.scripts (h.wf.mem_members.mp hd)
  exact ⟨hpayout.trans (by decide), hoperator.trans (by decide)⟩

/-- The header is not part of the invariant. -/
theorem header (hmn : l'.mnMap = l.mnMap) (hid : l'.mnInternalIdMap = l.mnInternalIdMap)
    (hup : l'.mnUniquePropertyMap = l.mnUniquePropertyMap)
    (htotal : l'.nTotalRegisteredCount = l.nTotalRegisteredCount) : Registry env txs n l' := by
  refine ⟨h.wf.of_maps_eq hmn hid hup, ?_, ?_, ?_, htotal ▸ h.total, ?_⟩ <;> intro p d hd <;>
    rw [hmn] at hd
  · exact h.owner hd
  · exact h.scripts hd
  · exact htotal ▸ h.ids hd
  · exact h.origin hd

theorem quiet {paid} (hq : Quiet env.serializeHash paid l l') : Registry env txs n l' := by
  refine ⟨hq.wf, ?_, ?_, ?_, hq.total ▸ h.total, ?_⟩ <;> intro p d' hd' <;>
    obtain ⟨d, hd, hs⟩ := hq.old hd'
  · rw [hs.state.keyIDOwner]
    exact h.owner hd
  · rw [hs.state.scriptPayout, hs.state.scriptOperatorPayout]
    exact h.scripts hd
  · rw [hs.internalId, hq.total]
    exact h.ids hd
  · rw [hs.state.keyIDOwner, hs.collateralOutpoint]
    exact h.origin hd

theorem without {c} (hw : WithoutCollateral env.serializeHash c l l') : Registry env txs n l' := by
  refine ⟨hw.wf, ?_, ?_, ?_, hw.total ▸ h.total, ?_⟩ <;> intro p d hd <;>
    have hd := ((hw.mem p d).mp hd).1
  · exact h.owner hd
  · exact h.scripts hd
  · exact hw.total ▸ h.ids hd
  · exact h.origin hd

theorem updated {d} {s}
    (hu : Updated env.serializeHash l l' p d s) (howner : s.keyIDOwner = d.pdmnState.keyIDOwner)
    (hscripts : s.scriptPayout.length ≤ 25 ∧ s.scriptOperatorPayout.length ≤ 25) :
    Registry env txs n l' := by
  -- the members of `l'` are the updated one and the others
  refine ⟨hu.wf, ?_, ?_, ?_, hu.total ▸ h.total, ?_⟩ <;> intro q d' hd' <;>
    rw [hu.mnMap] at hd' <;> rcases FMap.of_get_insert hd' with ⟨rfl, rfl⟩ | ⟨-, hd⟩
  · exact howner ▸ h.owner hu.get
  · exact h.owner hd
  · exact hscripts
  · exact h.scripts hd
  · have hid := h.ids hu.get
    rwa [hu.total]
  · exact hu.total ▸ h.ids hd
  · exact howner ▸ h.origin hu.get
  · exact h.origin hd

end

/-- The counter after a registration, as long as it does not wrap. -/
theorem total_succ (hlt : l.nTotalRegisteredCount.toNat + 1 < 2 ^ 32) :
    (max (l.nTotalRegisteredCount.toUInt64 + 1) l.nTotalRegisteredCount.toUInt64).toUInt32.toNat =
      l.nTotalRegisteredCount.toNat + 1 := by
  have hgt : ¬ l.nTotalRegisteredCount.toUInt64 + 1 ≤ l.nTotalRegisteredCount.toUInt64 := by
    rw [UInt64.le_iff_toNat_le]
    simp
    omega
  show (if l.nTotalRegisteredCount.toUInt64 + 1 ≤ l.nTotalRegisteredCount.toUInt64 then _
    else _ : UInt64).toUInt32.toNat = _
  rw [if_neg hgt]
  simp
  omega

theorem registered (h : Registry env txs n l) {pl} {l₁}
    (hpl : getTxPayload getProRegPL tx = some pl)
    (hr : Registered env.serializeHash nHeight tx pl l l₁ l') (htx : tx ∈ txs)
    (hscripts : pl.scriptPayout.length ≤ 25 ∧ pl.scriptOperatorPayout.length ≤ 25)
    (hn : n + 1 < 2 ^ 32) : Registry env txs (n + 1) l' := by
  have htotal := h.total
  have hsucc : l'.nTotalRegisteredCount.toNat = l.nTotalRegisteredCount.toNat + 1 := by
    rw [hr.total, total_succ (by omega)]
  have hw := h.without hr.without
  refine ⟨hr.wf, ?_, ?_, ?_, by omega, ?_⟩ <;> intro q d' hd' <;> rw [hr.mnMap] at hd' <;>
    rcases FMap.of_get_insert hd' with ⟨rfl, rfl⟩ | ⟨-, hd⟩
  · exact hr.canAdd.owner
  · exact hw.owner hd
  · exact hscripts
  · exact hw.scripts hd
  · rw [hsucc]
    simp [ProRegPL.newMN]
  · have := hw.ids hd
    rw [hr.without.total] at this
    omega
  · exact ⟨tx, htx, rfl, pl, hpl, rfl, rfl⟩
  · exact hw.origin hd

end Registry

/-! ### What the passed checks give -/

/-- The payload of a registration that passed. -/
theorem proReg_checked {pl} (hpass : checkSpecialTx env tx prev = .ok ())
    (htype : tx.nType = .proReg) (hpl : getTxPayload getProRegPL tx = some pl)
    : ProRegChecked env tx prev pl := by
  have h := checkSpecialTx_type hpass
  simp only [checkSpecialTxType, htype] at h
  obtain ⟨pl', hpl', hchecked⟩ := checkProRegTx_inv h
  obtain rfl := Option.mem_unique hpl' hpl
  exact hchecked

/-- An update that passed, by its kind. -/
theorem txUpdate_passed (hpass : checkSpecialTx env tx prev = .ok ())
    (hu : txUpdate nHeight tx = some (p, f)) :
    (∃ pl, ProUpServChecked env prev pl ∧ pl.proTxHash = p ∧ pl.newState nHeight = f) ∨
    (∃ pl, ProUpRegChecked env prev pl ∧ pl.proTxHash = p ∧ pl.newState nHeight = f) ∨
    ∃ pl, ProUpRevChecked env prev pl ∧ pl.proTxHash = p ∧ pl.newState nHeight = f := by
  have h := checkSpecialTx_type hpass
  unfold checkSpecialTxType at h
  obtain ⟨pl, htype, hpl, heq⟩ | ⟨pl, htype, hpl, heq⟩ | ⟨pl, htype, hpl, heq⟩ := txUpdate_cases hu
  · rw [htype] at h
    obtain ⟨pl', hpl', hchecked⟩ := checkProUpServTx_inv h
    obtain rfl := Option.mem_unique hpl' hpl
    exact .inl ⟨pl', hchecked, heq⟩
  · rw [htype] at h
    obtain ⟨pl', hpl', hchecked⟩ := checkProUpRegTx_inv h
    obtain rfl := Option.mem_unique hpl' hpl
    exact .inr (.inl ⟨pl', hchecked, heq⟩)
  · rw [htype] at h
    obtain ⟨pl', hpl', hchecked⟩ := checkProUpRevTx_inv h
    obtain rfl := Option.mem_unique hpl' hpl
    exact .inr (.inr ⟨pl', hchecked, heq⟩)

/-- An update that passed keeps the owner key and short scripts. -/
theorem txUpdate_checked (hpass : checkSpecialTx env tx prev = .ok ())
    (hu : txUpdate nHeight tx = some (p, f)) (s : DeterministicMNState) :
    (f s).keyIDOwner = s.keyIDOwner ∧
      (s.scriptPayout.length ≤ 25 ∧ s.scriptOperatorPayout.length ≤ 25 →
        (f s).scriptPayout.length ≤ 25 ∧ (f s).scriptOperatorPayout.length ≤ 25) := by
  obtain ⟨pl, hchecked, -, rfl⟩ | ⟨pl, hchecked, -, rfl⟩ | ⟨pl, -, -, rfl⟩ :=
    txUpdate_passed hpass hu
  · simpa using fun hs _ => ⟨hs, hchecked.operatorPayout⟩
  · refine ⟨by simp, fun hs => ⟨by simp [hchecked.payout], ?_⟩⟩
    rw [(pl.newState_fields _ _).2.2.2.2]
    split_ifs
    · simp
    · exact hs.2
  · exact ⟨by simp, fun hs => ⟨by simpa using hs.1, by simp⟩⟩

/-! ### The invariant over a block -/

section Block

variable (hinj : Injective env.serializeHash)
include hinj

variable {h : Int32} {l' : DeterministicMNList}

/-- One transaction keeps the invariant. -/
theorem Registry.tx_step {txs} (h : Registry env txs n l)
    (hpass : checkSpecialTx env tx prev = .ok ()) (htx : tx ∈ txs) (hn : n + regCount [tx] < 2 ^ 32)
    (hr : applyTx env prev nHeight l tx = .ok l') : Registry env txs (n + regCount [tx]) l' := by
  rcases applyTx_cases hinj h.wf hr with ⟨htype, pl, l₁, hpl, hreg⟩ |
    ⟨htype, p, f, d, hu, hupd⟩ | ⟨htype, -, rfl⟩
  · have hchecked := proReg_checked hpass htype hpl
    have hone : regCount [tx] = 1 := by simp [regCount, htype]
    rw [hone] at hn ⊢
    exact h.registered hpl hreg htx ⟨hchecked.payout.le, hchecked.operatorPayout⟩ hn
  · obtain ⟨howner, hscripts⟩ := txUpdate_checked hpass hu d.pdmnState
    have hupdated := h.updated hupd howner (hscripts (h.scripts hupd.get))
    exact hupdated.mono (fun _ ht => ht) (by omega)
  · exact h.mono (fun _ ht => ht) (by omega)

/-- The passes before the transactions complete and are quiet. -/
theorem build_opening (h : Wf env.serializeHash prev.mnList) : ∃ l₁ l₂,
      prev.mnList.members.foldlM (confirmMN env prev)
        ((prev.mnList.setBlockHash 0).setHeight (prev.nHeight + 1)) = .ok l₁ ∧
      decreasePoSePenalties env l₁ = .ok l₂ ∧
      Quiet env.serializeHash false ((prev.mnList.setBlockHash 0).setHeight (prev.nHeight + 1)) l₂ := by
  have hwf : Wf env.serializeHash ((prev.mnList.setBlockHash 0).setHeight (prev.nHeight + 1)) :=
    h.of_maps_eq rfl rfl rfl
  obtain ⟨l₁, hconfirm, hq₁⟩ := foldlM_quiet (f := confirmMN env prev) (R := fun a d => d = a)
    (fun hwf hget heq => by subst heq; exact confirmMN_quiet hinj hwf prev hget) prev.mnList.members
    hwf h.nodup_members fun d hd => ⟨d, h.mem_members.mp hd, rfl⟩
  obtain ⟨l₂, hdecrease, hq₂⟩ := decreasePoSePenalties_quiet hinj hq₁.wf
  exact ⟨l₁, l₂, hconfirm, hdecrease, hq₁.trans hq₂⟩

/-- What a completed build did, pass by pass. -/
theorem build_inv (h : Wf env.serializeHash prev.mnList)
    (hr : buildNewListFromBlock env vtx prev = .ok l') : ∃ l₂ l₃ l₄,
      Quiet env.serializeHash false ((prev.mnList.setBlockHash 0).setHeight (prev.nHeight + 1)) l₂ ∧
      vtx.tail.foldlM (applyTx env prev (prev.nHeight + 1)) l₂ = .ok l₃ ∧
      (vtx.tail.flatMap vin).foldlM (spendInput env) l₃ = .ok l₄ ∧
      payPayee env (prev.nHeight + 1) prev.mnList.getMNPayee l₄ = .ok l' := by
  obtain ⟨l₁, l₂, hconfirm, hdecrease, hquiet⟩ := build_opening hinj h
  unfold buildNewListFromBlock at hr
  obtain ⟨l₁', hconfirm', hr⟩ := bind_ok.mp hr
  obtain rfl := ok_unique hconfirm hconfirm'
  obtain ⟨l₂', hdecrease', hr⟩ := bind_ok.mp hr
  obtain rfl := ok_unique hdecrease hdecrease'
  obtain ⟨l₃, happly, hr⟩ := bind_ok.mp hr
  obtain ⟨l₄, hspend, hr⟩ := bind_ok.mp hr
  exact ⟨l₂, l₃, l₄, hquiet, happly, hspend, hr⟩

/-- **An invariant of a block**, pass by pass: `P txs txins l` speaks of the list `l` after the
transactions `txs` and the spent inputs `txins` of the block. -/
structure BlockInv (env : Env) (prev : PrevIndex) (vtx : List Transaction)
    (P : List Transaction → List TxIn → DeterministicMNList → Prop) : Prop where
  opening : ∀ l, Quiet env.serializeHash false
    ((prev.mnList.setBlockHash 0).setHeight (prev.nHeight + 1)) l → P [] [] l
  tx : ∀ pre tx post l l', vtx.tail = pre ++ tx :: post → Wf env.serializeHash l → P pre [] l →
    applyTx env prev (prev.nHeight + 1) l tx = .ok l' → P (pre ++ [tx]) [] l'
  spend : ∀ pre txin post l l', vtx.tail.flatMap vin = pre ++ txin :: post →
    P vtx.tail pre l → WithoutCollateral env.serializeHash txin.prevout l l' →
    P vtx.tail (pre ++ [txin]) l'

section
variable {P : List Transaction → List TxIn → DeterministicMNList → Prop} {prev : PrevIndex}
  {vtx : List Transaction}

/-- The transactions keep the invariant, with the maps well formed. -/
theorem BlockInv.txs (h : BlockInv env prev vtx P) {txs rest}
    (hsplit : vtx.tail = txs ++ rest) (hwf : Wf env.serializeHash l) (hopening : P [] [] l)
    (hr : txs.foldlM (applyTx env prev (prev.nHeight + 1)) l = .ok l') :
    Wf env.serializeHash l' ∧ P txs [] l' := by
  refine foldlM_inv (P := fun pre l => Wf env.serializeHash l ∧ P pre [] l) ?_ ⟨hwf, hopening⟩ hr
  intro pre tx post l l' htxs hpre hstep
  obtain ⟨hwf, hP⟩ := hpre
  refine ⟨?_, h.tx pre tx (post ++ rest) l l' (by simp [hsplit, htxs]) hwf hP hstep⟩
  rcases applyTx_cases hinj hwf hstep with ⟨-, pl, l₁, -, hreg⟩ | ⟨-, p, f, d, -, hupd⟩ | ⟨-, -, rfl⟩
  · exact hreg.wf
  · exact hupd.wf
  · exact hwf

/-- The invariant holds up to the payment, the last pass. -/
theorem BlockInv.unpaid (h : BlockInv env prev vtx P) (hwf : Wf env.serializeHash prev.mnList)
    (hr : buildNewListFromBlock env vtx prev = .ok l') :
    ∃ l, Wf env.serializeHash l ∧ P vtx.tail (vtx.tail.flatMap vin) l ∧
      payPayee env (prev.nHeight + 1) prev.mnList.getMNPayee l = .ok l' := by
  obtain ⟨l₂, l₃, l₄, hquiet, happly, hspend, hpay⟩ := build_inv hinj hwf hr
  have h₃ := h.txs hinj (append_nil _).symm hquiet.wf (h.opening l₂ hquiet) happly
  have h₄ : Wf env.serializeHash l₄ ∧ P vtx.tail (vtx.tail.flatMap vin) l₄ := by
    refine foldlM_inv (P := fun pre l => Wf env.serializeHash l ∧ P vtx.tail pre l) ?_ h₃ hspend
    intro pre txin post l l' hsplit hpre hstep
    obtain ⟨hwf, hP⟩ := hpre
    rw [spendInput_eq hwf] at hstep
    have hw := (removeReplaced_inv hinj hwf hstep).1
    exact ⟨hw.wf, h.spend pre txin post l l' hsplit hP hw⟩
  exact ⟨l₄, h₄.1, h₄.2, hpay⟩

/-- **What every pass preserves holds of the list of the block.** -/
theorem BlockInv.build (h : BlockInv env prev vtx P) (hwf : Wf env.serializeHash prev.mnList)
    (hpayment : ∀ l l', P vtx.tail (vtx.tail.flatMap vin) l → Quiet env.serializeHash true l l' → P vtx.tail (vtx.tail.flatMap vin) l')
    (hr : buildNewListFromBlock env vtx prev = .ok l') : P vtx.tail (vtx.tail.flatMap vin) l' := by
  obtain ⟨l, hwfl, hP, hpay⟩ := h.unpaid hinj hwf hr
  obtain ⟨l₅, hpay', hquiet⟩ := payPayee_quiet hinj hwfl (prev.nHeight + 1) prev.mnList.getMNPayee
  obtain rfl := ok_unique hpay' hpay
  exact hpayment l l₅ hP hquiet

end

/-- The registry is an invariant of a block. -/
theorem Registry.blockInv {txs} (h : Registry env txs n prev.mnList)
    (hpass : SpecialTxsPass env vtx prev) (hn : n + regCount vtx < 2 ^ 32) :
    BlockInv env prev vtx fun pre _ l => Registry env (txs ++ vtx) (n + regCount pre) l where
  opening l hquiet := by
    have h₁ : Registry env (txs ++ vtx) n
        ((prev.mnList.setBlockHash 0).setHeight (prev.nHeight + 1)) :=
      (h.mono (fun tx htx => mem_append_left _ htx) le_rfl).header rfl rfl rfl rfl
    exact h₁.quiet hquiet
  tx pre tx post l l' hsplit _ hpre hstep := by
    have hmem : tx ∈ vtx := mem_of_mem_tail (by simp [hsplit])
    have htail := regCount_tail_le vtx
    have hcount : regCount vtx.tail = regCount pre + (regCount [tx] + regCount post) := by
      rw [hsplit, ← regCount_append, singleton_append, regCount_append]
    have hnext := hpre.tx_step hinj (hpass tx hmem) (mem_append_right _ hmem) (by omega) hstep
    rwa [regCount_append, ← Nat.add_assoc]
  spend _ _ _ _ _ _ hpre hw := hpre.without hw

/-- **A block keeps the invariant.** -/
theorem Registry.build {txs} (h : Registry env txs n prev.mnList)
    (hpass : SpecialTxsPass env vtx prev) (hn : n + regCount vtx < 2 ^ 32)
    (hr : buildNewListFromBlock env vtx prev = .ok l') :
    Registry env (txs ++ vtx) (n + regCount vtx) l' := by
  have htail := regCount_tail_le vtx
  have hbuilt := (h.blockInv hinj hpass hn).build hinj h.wf (fun _ _ hreg hq => hreg.quiet hq) hr
  exact hbuilt.mono (fun _ ht => ht) (by omega)

/-- Every list of a chain with fewer than `2 ^ 32` registrations keeps the invariant. -/
theorem ChainList.registry {txs} (hl : ChainList env txs h l)
    (hn : regCount txs < 2 ^ 32) : Registry env txs (regCount txs) l := by
  induction hl with
  | start blockHash h => exact Registry.empty blockHash (-1)
  | next blockHash _ hpass hr ih =>
    rw [regCount_append] at hn ⊢
    exact ((ih (by omega)).build hinj hpass hn hr).header rfl rfl rfl rfl

/-- **A property of the members of every list of a chain**: quiet changes keep it, the
registrations that pass give it and the updates that pass keep it. -/
theorem ChainList.forall_members {Q : DeterministicMN → Prop} {txs} (hl : ChainList env txs h l)
    (hquiet : ∀ {paid} {d d' : DeterministicMN}, d.SameIdentity paid d' → Q d → Q d')
    (hregister : ∀ {prev tx pl} id, checkSpecialTx env tx prev = .ok () → tx.nType = .proReg →
      getTxPayload getProRegPL tx = some pl → Q (pl.newMN tx id (prev.nHeight + 1)))
    (hupdate : ∀ {prev tx p f d}, checkSpecialTx env tx prev = .ok () →
      txUpdate (prev.nHeight + 1) tx = some (p, f) → Q d → Q { d with pdmnState := f d.pdmnState }) :
    Wf env.serializeHash l ∧ ∀ (p : Uint256) (d : DeterministicMN), l.mnMap[p]? = some d → Q d := by
  let P : DeterministicMNList → Prop := fun l => Wf env.serializeHash l ∧
    ∀ (p : Uint256) (d : DeterministicMN), l.mnMap[p]? = some d → Q d
  have hkept : ∀ {paid} l l', P l → Quiet env.serializeHash paid l l' → P l' := by
    refine fun l l' hP hq => ⟨hq.wf, fun p d' hd' => ?_⟩
    obtain ⟨d, hd, hsame⟩ := hq.old hd'
    exact hquiet hsame (hP.2 p d hd)
  induction hl with
  | start blockHash h => exact ⟨wf_empty _ _ _, by simp⟩
  | @next _ vtx prev l' blockHash _ hpass hr ih =>
    have hinv : BlockInv env prev vtx fun _ _ => P := by
      refine ⟨fun l => hkept _ l ⟨ih.1.of_maps_eq rfl rfl rfl, ih.2⟩, ?_,
        fun _ _ _ _ _ _ hpre hw => ⟨hw.wf, fun p d hd => hpre.2 p d ((hw.mem p d).mp hd).1⟩⟩
      intro pre tx post l l' hsplit hwf hpre hstep
      have hchecked := hpass tx (mem_of_mem_tail (by simp [hsplit]))
      rcases applyTx_cases hinj hwf hstep with ⟨htype, pl, l₁, hpl, hreg⟩ |
        ⟨-, q, f, d, hu, hupd⟩ | ⟨-, -, rfl⟩
      · refine ⟨hreg.wf, fun p d hd => ?_⟩
        rw [hreg.mnMap] at hd
        rcases FMap.of_get_insert hd with ⟨-, rfl⟩ | ⟨-, hd⟩
        · exact hregister _ hchecked htype hpl
        · exact hpre.2 p d ((hreg.without.mem p d).mp hd).1
      · refine ⟨hupd.wf, fun p d' hd' => ?_⟩
        rw [hupd.mnMap] at hd'
        rcases FMap.of_get_insert hd' with ⟨-, rfl⟩ | ⟨-, hd'⟩
        · exact hupdate hchecked hu (hpre.2 q d hupd.get)
        · exact hpre.2 p d' hd'
      · exact hpre
    have hbuilt : P l' := hinv.build hinj ih.1 hkept hr
    exact ⟨hbuilt.1.of_maps_eq rfl rfl rfl, hbuilt.2⟩

end Block

/-! ### Which masternodes are without operator key -/

/-- The effect of a transaction on the set of masternodes without operator key. -/
def operatorlessStep (without : Uint256 → Bool) (tx : Transaction) : Uint256 → Bool :=
  match tx.nType with
  | .proReg => update without tx.hash false
  | .proUpReg =>
    match getTxPayload getProUpRegPL tx with
    | none => without
    | some pl => update without pl.proTxHash false
  | .proUpRev =>
    match getTxPayload getProUpRevPL tx with
    | none => without
    | some pl => update without pl.proTxHash true
  | _ => without

/-- The masternodes without operator key after some transactions on a list: those of the
list, the ones revoked since, without the ones registered or given a key since. -/
def operatorless (l : DeterministicMNList) (txs : List Transaction) : Uint256 → Bool :=
  txs.foldl operatorlessStep fun p => (l.getMN p).any fun d => d.pdmnState.keyIDOperator == 0

/-- The masternode has the collateral: in the list, or by a registration since. -/
def RegisteredWith (l : DeterministicMNList) (txs : List Transaction) (p : Uint256)
    (o : OutPoint) : Prop :=
  (∃ d, l.mnMap[p]? = some d ∧ d.collateralOutpoint = o) ∨
    ∃ tx ∈ txs, tx.nType = .proReg ∧ tx.hash = p ∧
      ∃ pl, getTxPayload getProRegPL tx = some pl ∧ pl.collateral tx = o

/-- **No masternode is removed while it has no operator key**: neither by a registration
that takes over its collateral, nor by a transaction that spends the collateral. -/
structure RemovalsKeyed (l : DeterministicMNList) (vtx : List Transaction) : Prop where
  replaced : ∀ pre tx post pl p, vtx.tail = pre ++ tx :: post → tx.nType = .proReg →
    getTxPayload getProRegPL tx = some pl → RegisteredWith l pre p (pl.collateral tx) →
    operatorless l pre p = false
  spent : ∀ tx ∈ vtx.tail, ∀ txin ∈ tx.vin, ∀ p, RegisteredWith l vtx.tail p txin.prevout →
    operatorless l vtx.tail p = false

/-- The list `l` follows what `operatorless` and `RegisteredWith` say after `txs`. -/
structure Tracked (l₀ : DeterministicMNList) (txs : List Transaction) (l : DeterministicMNList) :
    Prop where
  keyed : ∀ {p : Uint256} {d : DeterministicMN}, l.mnMap[p]? = some d →
    d.pdmnState.keyIDOperator = 0 → operatorless l₀ txs p = true
  placed : ∀ {p : Uint256} {d : DeterministicMN}, l.mnMap[p]? = some d →
    RegisteredWith l₀ txs p d.collateralOutpoint

/-- Transactions of normal type give and take no keys. -/
theorem operatorless_normal {txs} (hnormal : ∀ tx ∈ txs, tx.nType = .normal)
    : operatorless l txs = operatorless l [] := by
  unfold operatorless
  generalize (fun p => (l.getMN p).any fun d => d.pdmnState.keyIDOperator == 0) = without
  induction txs with
  | nil => rfl
  | cons tx txs ih =>
    have hstep : operatorlessStep without tx = without := by
      simp [operatorlessStep, hnormal tx mem_cons_self]
    rw [foldl_cons, hstep]
    exact ih fun tx' htx' => hnormal tx' (mem_cons_of_mem tx htx')

/-- A block of normal transactions on a list in which every masternode has its operator key. -/
theorem RemovalsKeyed.of_keyed {sh : UniqueProperty → Nat} (hwf : Wf sh l)
    (hkeys : ∀ d ∈ l.members, d.pdmnState.keyIDOperator ≠ 0)
    (hnormal : ∀ tx ∈ vtx.tail, tx.nType = .normal) : RemovalsKeyed l vtx := by
  refine ⟨?_, ?_⟩
  · intro pre tx post pl p hsplit htype
    simp [hnormal tx (by simp [hsplit])] at htype
  · intro tx _ txin _ p _
    rw [operatorless_normal hnormal]
    cases hd : l.mnMap[p]? with
    | none => simp [operatorless, getMN, hd]
    | some d =>
      have hmem : d ∈ l.members := hwf.mem_members.mpr ((hwf.key hd).symm ▸ hd)
      simpa [operatorless, getMN, hd] using hkeys d hmem

theorem operatorless_append (l : DeterministicMNList) (txs : List Transaction) (tx : Transaction) :
    operatorless l (txs ++ [tx]) = operatorlessStep (operatorless l txs) tx := by
  simp [operatorless]

theorem RegisteredWith.append {txs} {o} (h : RegisteredWith l txs p o)
    (tx : Transaction) : RegisteredWith l (txs ++ [tx]) p o := by
  rcases h with h | ⟨t, ht, rest⟩
  · exact .inl h
  · exact .inr ⟨t, mem_append_left _ ht, rest⟩

/-- What an update that passed does to the set: a masternode that ends without operator key
was without one before, or is revoked. -/
theorem operatorlessStep_update (hpass : checkSpecialTx env tx prev = .ok ())
    (hu : txUpdate nHeight tx = some (p, f)) (without : Uint256 → Bool) :
    (∀ s, (f s).keyIDOperator = 0 → (s.keyIDOperator = 0 → without p = true) →
      operatorlessStep without tx p = true) ∧
    ∀ q, q ≠ p → operatorlessStep without tx q = without q := by
  unfold operatorlessStep
  obtain ⟨pl, htype, -, rfl, rfl⟩ | ⟨pl, htype, hpl, rfl, rfl⟩ | ⟨pl, htype, hpl, rfl, rfl⟩ :=
    txUpdate_cases hu
  · rw [htype]
    exact ⟨fun s hs hw => hw (by simpa using hs), fun _ _ => rfl⟩
  · have h := checkSpecialTx_type hpass
    simp only [checkSpecialTxType, htype] at h
    obtain ⟨pl', hpl', hchecked⟩ := checkProUpRegTx_inv h
    obtain rfl := Option.mem_unique hpl' hpl
    simp only [htype, hpl]
    refine ⟨fun s hs _ => ?_, fun q hq => update_of_ne hq _ _⟩
    rw [(pl'.newState_fields _ _).2.2.1] at hs
    exact absurd hs hchecked.operator
  · simp only [htype, hpl]
    exact ⟨fun _ _ _ => update_self _ _ _, fun q hq => update_of_ne hq _ _⟩

theorem operatorlessStep_none (htype : tx.nType ≠ .proReg) (hu : txUpdate nHeight tx = none)
    (without : Uint256 → Bool) : operatorlessStep without tx = without := by
  unfold txUpdate at hu
  unfold operatorlessStep
  cases ht : tx.nType with
  | proReg => exact absurd ht htype
  | proUpReg | proUpRev =>
    simp only [ht] at hu ⊢
    rw [Option.map_eq_none_iff.mp hu]
  | normal | proUpServ | unknown n => rfl

namespace Tracked

variable {l₀ l l' : DeterministicMNList} {txs : List Transaction}

theorem start {paid} (hq : Quiet env.serializeHash paid l l') (hmn : l.mnMap = l₀.mnMap) :
    Tracked l₀ [] l' := by
  refine ⟨?_, ?_⟩ <;> intro p d' hd' <;> obtain ⟨d, hd, hs⟩ := hq.old hd' <;> rw [hmn] at hd
  · intro hop
    rw [hs.state.keyIDOperator] at hop
    simp [operatorless, getMN, hd, hop]
  · exact .inl ⟨d, hd, hs.collateralOutpoint.symm⟩

theorem without (h : Tracked l₀ txs l) {c}
    (hw : WithoutCollateral env.serializeHash c l l') : Tracked l₀ txs l' :=
  ⟨fun hd => h.keyed ((hw.mem _ _).mp hd).1, fun hd => h.placed ((hw.mem _ _).mp hd).1⟩

theorem step (hinj : Injective env.serializeHash) (hwf : Wf env.serializeHash l)
    (h : Tracked l₀ txs l) (hpass : checkSpecialTx env tx prev = .ok ())
    (hr : applyTx env prev nHeight l tx = .ok l') : Tracked l₀ (txs ++ [tx]) l' := by
  rcases applyTx_cases hinj hwf hr with ⟨htype, pl, l₁, hpl, hreg⟩ |
    ⟨htype, p, f, d, hu, hupd⟩ | ⟨htype, hnone, rfl⟩
  · refine ⟨?_, ?_⟩ <;> intro q d' hd' <;> rw [hreg.mnMap] at hd' <;>
      rcases FMap.of_get_insert hd' with ⟨rfl, rfl⟩ | ⟨hne, hd⟩
    · exact fun hop => absurd hop hreg.canAdd.operator
    · intro hop
      rw [operatorless_append]
      simp only [operatorlessStep, htype, update_of_ne hne.symm]
      exact h.keyed ((hreg.without.mem _ _).mp hd).1 hop
    · exact .inr ⟨tx, by simp, htype, rfl, pl, hpl, rfl⟩
    · exact (h.placed ((hreg.without.mem _ _).mp hd).1).append tx
  · obtain ⟨hself, hothers⟩ := operatorlessStep_update hpass hu (operatorless l₀ txs)
    refine ⟨?_, ?_⟩ <;> intro q d' hd' <;> rw [hupd.mnMap] at hd' <;>
      rcases FMap.of_get_insert hd' with ⟨rfl, rfl⟩ | ⟨hne, hd⟩
    · intro hop
      rw [operatorless_append]
      exact hself _ hop fun h0 => h.keyed hupd.get h0
    · intro hop
      rw [operatorless_append, hothers q hne.symm]
      exact h.keyed hd hop
    · exact (h.placed hupd.get).append tx
    · exact (h.placed hd).append tx
  · refine ⟨fun hd hop => ?_, fun hd => (h.placed hd).append tx⟩
    rw [operatorless_append, operatorlessStep_none htype hnone]
    exact h.keyed hd hop

end Tracked

/-! ### Every block returns -/

/-- Different transactions have different hashes. -/
def HashesIdentify (txs : List Transaction) : Prop :=
  ∀ tx ∈ txs, ∀ tx' ∈ txs, tx.hash = tx'.hash → tx = tx'

/-- A transaction returns when it removes no masternode without operator key. -/
theorem applyTx_returns (hinj : Injective env.serializeHash) {txs}
    (h : Registry env txs n l) (hident : HashesIdentify txs) (nHeight : Int32)
    (hpass : checkSpecialTx env tx prev = .ok ()) (htx : tx ∈ txs)
    (hkeyed : ∀ pl, tx.nType = .proReg → getTxPayload getProRegPL tx = some pl → ∀ (p : Uint256) d, l.mnMap[p]? = some d → d.collateralOutpoint = pl.collateral tx → d.pdmnState.keyIDOperator ≠ 0) :
    Returns (applyTx env prev nHeight l tx) := by
  unfold applyTx
  cases htype : tx.nType with
  | normal | unknown _ => exact .ok l
  | proUpServ => exact applyProUpServ_returns hinj h.wf nHeight tx
  | proUpReg => exact applyProUpReg_returns hinj h.wf nHeight tx
  | proUpRev => exact applyProUpRev_returns hinj h.wf nHeight tx
  | proReg =>
    have hcheck := checkSpecialTx_type hpass
    simp only [checkSpecialTxType, htype] at hcheck
    obtain ⟨pl, hpl, hchecked⟩ := checkProRegTx_inv hcheck
    refine applyProReg_returns hinj h.wf prev nHeight hpl hchecked ?_ ?_ ?_
    · exact fun p d hd hc => ⟨h.owner hd, hkeyed pl htype hpl p d hd hc⟩
    · intro p d hd heq
      have hid := h.ids hd
      rw [heq] at hid
      simp at hid
    · intro d hd
      obtain ⟨tx', htx', hhash, pl', hpl', howner, -⟩ := h.origin hd
      obtain rfl := hident tx' htx' tx htx hhash
      obtain rfl := Option.mem_unique hpl' hpl
      exact howner.symm

/-- **`BuildNewListFromBlock` returns** a list or a reject reason for the next block of a
chain, as long as the block removes no masternode without operator key. -/
theorem build_returns (hinj : Injective env.serializeHash) {txs vtx : List Transaction}
    {prev : PrevIndex} (hchain : ChainList env txs prev.nHeight prev.mnList)
    (hpass : SpecialTxsPass env vtx prev) (hident : HashesIdentify (txs ++ vtx))
    (hcount : regCount (txs ++ vtx) < 2 ^ 32) (hkeyed : RemovalsKeyed prev.mnList vtx) :
    Returns (buildNewListFromBlock env vtx prev) := by
  rw [regCount_append] at hcount
  have hreg := hchain.registry hinj (by omega)
  have hinv := hreg.blockInv hinj hpass hcount
  obtain ⟨l₁, l₂, hconfirm, hdecrease, hquiet⟩ := build_opening hinj hreg.wf
  have hmem : ∀ tx ∈ vtx.tail, tx ∈ vtx := fun tx htx => mem_of_mem_tail htx
  -- the invariant of the transaction pass: the registry, and what the removals need
  let P : List Transaction → DeterministicMNList → Prop := fun pre l =>
    Registry env (txs ++ vtx) (regCount txs + regCount pre) l ∧ Tracked prev.mnList pre l
  have hstep : ∀ pre tx post l l', vtx.tail = pre ++ tx :: post → P pre l →
      applyTx env prev (prev.nHeight + 1) l tx = .ok l' → P (pre ++ [tx]) l' := by
    rintro pre tx post l l' hsplit ⟨hR, hT⟩ hr
    have htx : tx ∈ vtx.tail := by simp [hsplit]
    exact ⟨hinv.tx pre tx post l l' hsplit hR.wf hR hr,
      hT.step hinj hR.wf (hpass tx (hmem tx htx)) hr⟩
  have hret : ∀ pre tx post l, vtx.tail = pre ++ tx :: post → P pre l →
      Returns (applyTx env prev (prev.nHeight + 1) l tx) := by
    rintro pre tx post l hsplit ⟨hR, hT⟩
    have htx : tx ∈ vtx.tail := by simp [hsplit]
    refine applyTx_returns hinj hR hident _ (hpass tx (hmem tx htx))
      (mem_append_right _ (hmem tx htx)) ?_
    intro pl htype hpl p d hd hc hop
    have hfalse := hkeyed.replaced pre tx post pl p hsplit htype hpl (hc ▸ hT.placed hd)
    rw [hT.keyed hd hop] at hfalse
    cases hfalse
  have hP₂ : P [] l₂ := ⟨hinv.opening l₂ hquiet, Tracked.start hquiet rfl⟩
  unfold buildNewListFromBlock
  refine Returns.bind (Or.inl ⟨l₁, hconfirm⟩) fun a ha => ?_
  obtain rfl := ok_unique hconfirm ha
  refine Returns.bind (Or.inl ⟨l₂, hdecrease⟩) fun a ha => ?_
  obtain rfl := ok_unique hdecrease ha
  refine Returns.bind (foldlM_returns hstep hret hP₂) fun l₃ hl₃ => ?_
  have hP₃ : P vtx.tail l₃ := foldlM_inv hstep hP₂ hl₃
  -- the removals of spent collaterals keep both parts of the invariant
  have hspend : ∀ (pre : List TxIn) txin post l l',
      vtx.tail.flatMap vin = pre ++ txin :: post → P vtx.tail l →
      spendInput env l txin = .ok l' → P vtx.tail l' := by
    rintro pre txin post l l' - ⟨hR, hT⟩ hr
    rw [spendInput_eq hR.wf] at hr
    have hw := (removeReplaced_inv hinj hR.wf hr).1
    exact ⟨hR.without hw, hT.without hw⟩
  have hspendRet : ∀ (pre : List TxIn) txin post l,
      vtx.tail.flatMap vin = pre ++ txin :: post → P vtx.tail l →
      Returns (spendInput env l txin) := by
    rintro pre txin post l hsplit ⟨hR, hT⟩
    rw [spendInput_eq hR.wf]
    refine Or.inl (removeReplaced_run hinj hR.wf fun p d hd hc => ⟨hR.owner hd, fun hop => ?_⟩)
    obtain ⟨tx, htx, hin⟩ : ∃ tx ∈ vtx.tail, txin ∈ tx.vin := by
      rw [← mem_flatMap, hsplit]
      simp
    have hfalse := hkeyed.spent tx htx txin hin p (hc ▸ hT.placed hd)
    rw [hT.keyed hd hop] at hfalse
    cases hfalse
  refine Returns.bind (foldlM_returns (P := fun _ => P vtx.tail) hspend hspendRet hP₃)
    fun l₄ hl₄ => ?_
  have hP₄ : P vtx.tail l₄ := foldlM_inv (P := fun _ => P vtx.tail) hspend hP₃ hl₄
  obtain ⟨l₅, hpay, -⟩ := payPayee_quiet hinj hP₄.1.wf (prev.nHeight + 1) prev.mnList.getMNPayee
  exact Or.inl ⟨l₅, hpay⟩

/-! ### A masternode that is revoked and then spent

The same registration three times: spent while its operator key is set, revoked, and spent
after the revocation. -/

namespace Sample

def p2pkh (k : KeyID) : Script := [0x76, 0xa9, 0x14] ++ putKeyID k ++ [0x88, 0xac]

/-- A regression test network on which every signature verifies. -/
def regtest : Env where
  serializeHash := UniqueProperty.numbering
  sha256 a b := a + b
  extractDestination s :=
    if Script.isPayToPublicKeyHash s then
      match getKeyID.run (s.drop 3) with
      | .ok (k, _) => some (.keyID k)
      | .error _ => none
    else none
  verifyHash _ _ _ := true
  verifyMessage _ _ _ := true
  calcTxInputsHash _ := 0
  isValid _ := true
  isRoutable _ := true
  isIPv4 _ := true
  isRegTestNet := true
  isMainNet := false
  mainnetDefaultPort := 9999
  nMNCollateralAmt := 100
  masternodeCollateralMinConf := 1
  isDIP3Enforced _ := true
  legacyMNObsolete _ := true

def coinbase : Transaction where
  hash := 1
  nVersion := 1
  nType := .normal
  vin := [⟨OutPoint.null, []⟩]
  vout := [⟨0, []⟩]
  sapData := none
  extraPayload := none

/-- Register a masternode; its collateral is the first output. -/
def register : Transaction where
  hash := 2
  nVersion := 3
  nType := .proReg
  vin := [⟨⟨7, 0⟩, []⟩]
  vout := [⟨100, p2pkh 4⟩]
  sapData := none
  extraPayload := some (putProRegPL
    { collateralOutpoint := ⟨0, 0⟩, keyIDOwner := 1, keyIDOperator := 2, keyIDVoting := 3,
      scriptPayout := p2pkh 4, inputsHash := 0 })

/-- Revoke its operator. -/
def revoke : Transaction where
  hash := 3
  nVersion := 3
  nType := .proUpRev
  vin := [⟨⟨7, 1⟩, []⟩]
  vout := []
  vout_lt := no_vout_lt
  sapData := none
  extraPayload := some (putProUpRevPL { proTxHash := 2, inputsHash := 0, vchSig := [] })

/-- Spend its collateral. -/
def spend : Transaction :=
  { revoke with
    hash := 4, nVersion := 1, nType := .normal, vin := [⟨⟨2, 0⟩, []⟩], extraPayload := none }

def started : PrevIndex where
  nHeight := 9
  blockHash := 90
  mnList := ⟨90, -1, 0, ∅, ∅, ∅⟩
  getUTXOCoin o := if o = ⟨2, 0⟩ then some ⟨100, p2pkh 4⟩ else none

def registered : PrevIndex := nextIndex regtest started 100 [coinbase, register]

def revoked : PrevIndex := nextIndex regtest registered 110 [coinbase, revoke]

theorem serializeHash_injective : Injective regtest.serializeHash :=
  UniqueProperty.numbering_injective

theorem registered_chain :
    ChainList regtest [coinbase, register] registered.nHeight registered.mnList :=
  have hstart : ChainList regtest [] started.nHeight started.mnList := .start 90 9
  hstart.extend 100 (by decide +kernel) (by decide +kernel)

theorem revoked_chain :
    ChainList regtest [coinbase, register, coinbase, revoke] revoked.nHeight revoked.mnList :=
  registered_chain.extend 110 (by decide +kernel) (by decide +kernel)

theorem registered_keyed : ∀ d ∈ registered.mnList.members, d.pdmnState.keyIDOperator ≠ 0 := by
  decide +kernel

/-- A spend removes the registered masternode with its operator key. -/
theorem removalsKeyed : RemovalsKeyed registered.mnList [coinbase, spend] :=
  .of_keyed (registered_chain.registry serializeHash_injective (by decide)).wf registered_keyed
    (by decide)

end Sample

open Sample

/-- The spend of a masternode with its operator key meets the conditions. -/
theorem build_returns_registered :
    Returns (buildNewListFromBlock regtest [coinbase, spend] registered) :=
  build_returns serializeHash_injective registered_chain (by decide +kernel)
    (by unfold HashesIdentify; decide +kernel) (by decide) removalsKeyed

/-- **The spend of a revoked masternode ends the process**: the operator key is null. -/
theorem build_aborts_revoked : ChainList regtest [coinbase, register, coinbase, revoke]
      revoked.nHeight revoked.mnList ∧ SpecialTxsPass regtest [coinbase, spend] revoked ∧
    buildNewListFromBlock regtest [coinbase, spend] revoked =
      .error (.abort "oldValue != nullValue") :=
  ⟨revoked_chain, by decide +kernel, by decide +kernel⟩

/-! ### Stored lists -/

/-- **A list of a chain is read back from its serialization exactly if all its members have
an operator key** (and a vector of its length is accepted), in whatever order the members were
written. -/
theorem chainList_read_back (hinj : Injective env.serializeHash)
    {txs : List Transaction} {h : Int32} {l : DeterministicMNList} (hchain : ChainList env txs h l)
    (hcount : regCount txs < 2 ^ 32) {order : List DeterministicMN} (hperm : order.Perm l.members) :
    unserialize env.serializeHash (l.serializeAs order) = .ok (l, []) ↔
      l.members.length ≤ maxSize ∧ ∀ d ∈ l.members, d.pdmnState.keyIDOperator ≠ 0 := by
  have hreg := hchain.registry hinj hcount
  have hiff := unserialize_serializeAs_iff hinj hreg.wf hperm hreg.scriptsFit
    hreg.length_members_lt []
  rw [append_nil] at hiff
  rw [hiff]
  refine and_congr_right fun _ => forall₂_congr fun d hd => ?_
  exact and_iff_right (hreg.owner (hreg.wf.mem_members.mp hd))

/-- The registered masternode is read back. -/
theorem registered_read_back : unserialize regtest.serializeHash registered.mnList.serialize =
      .ok (registered.mnList, []) :=
  (chainList_read_back serializeHash_injective registered_chain (by decide)
    (Perm.refl _)).mpr ⟨by decide +kernel, registered_keyed⟩

/-- **The list with the revoked masternode cannot be read**: `AddMN` asserts an operator key. -/
theorem revoked_read_aborts : ChainList regtest [coinbase, register, coinbase, revoke]
      revoked.nHeight revoked.mnList ∧ unserialize regtest.serializeHash revoked.mnList.serialize =
      .error (.abort "v != nullValue") :=
  ⟨revoked_chain, by decide +kernel⟩

end KmushiCoin
