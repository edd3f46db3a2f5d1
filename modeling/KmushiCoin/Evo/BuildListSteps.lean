import KmushiCoin.Evo.BuildList

/-!
# KmushiCoin.Evo.BuildListSteps

What each step of `BuildNewListFromBlock` does to a well-formed list, said once:
the results about whole blocks and chains use these lemmas and never unfold a step.

* The **quiet** passes (confirmations, penalties, the payment) change no unique
  property; they always complete (`Quiet`).
* The removal of a replaced or spent masternode *filters out* the member with the
  collateral (`WithoutCollateral`). It completes exactly when that member, if there is
  one, has an operator key.
* Each special transaction has an inversion lemma and a progress lemma.
-/

namespace KmushiCoin

open DeterministicMN DeterministicMNList Returns UniqueProperty List

variable {env : Env}

/-! ### Quiet changes -/

/-- The two states differ at most in penalties, the confirmed hash and, for a payment, in the
height of the last payment. -/
structure DeterministicMNState.SameIdentity (paid : Bool) (s s' : DeterministicMNState) : Prop where
  addr : s'.addr = s.addr
  keyIDOwner : s'.keyIDOwner = s.keyIDOwner
  keyIDOperator : s'.keyIDOperator = s.keyIDOperator
  keyIDVoting : s'.keyIDVoting = s.keyIDVoting
  nPoSeBanHeight : s'.nPoSeBanHeight = s.nPoSeBanHeight
  scriptPayout : s'.scriptPayout = s.scriptPayout
  scriptOperatorPayout : s'.scriptOperatorPayout = s.scriptOperatorPayout
  nRegisteredHeight : s'.nRegisteredHeight = s.nRegisteredHeight
  nPoSeRevivedHeight : s'.nPoSeRevivedHeight = s.nPoSeRevivedHeight
  nLastPaidHeight : paid = false → s'.nLastPaidHeight = s.nLastPaidHeight

/-- The two members are the same masternode with the same properties. -/
structure DeterministicMN.SameIdentity (paid : Bool) (d d' : DeterministicMN) : Prop where
  proTxHash : d'.proTxHash = d.proTxHash
  internalId : d'.internalId = d.internalId
  collateralOutpoint : d'.collateralOutpoint = d.collateralOutpoint
  nOperatorReward : d'.nOperatorReward = d.nOperatorReward
  state : d.pdmnState.SameIdentity paid d'.pdmnState

variable {paid : Bool}

theorem DeterministicMNState.SameIdentity.refl (s : DeterministicMNState) : s.SameIdentity paid s :=
  ⟨rfl, rfl, rfl, rfl, rfl, rfl, rfl, rfl, rfl, fun _ => rfl⟩

theorem DeterministicMNState.SameIdentity.trans {s₁ s₂ s₃ : DeterministicMNState}
    (h : s₁.SameIdentity paid s₂) (h' : s₂.SameIdentity paid s₃) : s₁.SameIdentity paid s₃ :=
  ⟨h'.1.trans h.1, h'.2.trans h.2, h'.3.trans h.3, h'.4.trans h.4, h'.5.trans h.5, h'.6.trans h.6,
    h'.7.trans h.7, h'.8.trans h.8, h'.9.trans h.9, fun hp => (h'.10 hp).trans (h.10 hp)⟩

theorem DeterministicMN.SameIdentity.refl (d : DeterministicMN) : d.SameIdentity paid d :=
  ⟨rfl, rfl, rfl, rfl, .refl _⟩

theorem DeterministicMN.SameIdentity.trans {d₁ d₂ d₃ : DeterministicMN}
    (h : d₁.SameIdentity paid d₂) (h' : d₂.SameIdentity paid d₃) : d₁.SameIdentity paid d₃ :=
  ⟨h'.1.trans h.1, h'.2.trans h.2, h'.3.trans h.3, h'.4.trans h.4, h.state.trans h'.state⟩

variable {d : DeterministicMN} {l l' : DeterministicMNList} {p : Uint256} {s : DeterministicMNState}
  {tx : Transaction}

theorem DeterministicMN.SameIdentity.eq {d'} (h : d.SameIdentity paid d') :
    d' = { d with pdmnState := d'.pdmnState } := by
  obtain ⟨_, _, _, _, _⟩ := d'
  obtain ⟨rfl, rfl, rfl, rfl, -⟩ := h
  rfl

theorem DeterministicMN.SameIdentity.uniqueProperties {d'} (h : d.SameIdentity paid d')
    : d'.uniqueProperties = d.uniqueProperties := by
  simp only [DeterministicMN.uniqueProperties, h.collateralOutpoint, h.state.addr,
    h.state.keyIDOwner, h.state.keyIDOperator]

/-- A change that keeps every member and its properties. -/
structure Quiet (serializeHash : UniqueProperty → Nat) (paid : Bool) (l l' : DeterministicMNList) :
    Prop where
  wf : Wf serializeHash l'
  total : l'.nTotalRegisteredCount = l.nTotalRegisteredCount
  blockHash : l'.blockHash = l.blockHash
  nHeight : l'.nHeight = l.nHeight
  /-- Every member is one from before. -/
  old : ∀ {p : Uint256} {d' : DeterministicMN}, l'.mnMap[p]? = some d' →
    ∃ d, l.mnMap[p]? = some d ∧ d.SameIdentity paid d'
  /-- Every member from before is still there. -/
  kept : ∀ {p : Uint256} {d : DeterministicMN}, l.mnMap[p]? = some d →
    ∃ d', l'.mnMap[p]? = some d' ∧ d.SameIdentity paid d'

theorem Quiet.refl (h : Wf env.serializeHash l) : Quiet env.serializeHash paid l l :=
  ⟨h, rfl, rfl, rfl, fun hd => ⟨_, hd, .refl _⟩, fun hd => ⟨_, hd, .refl _⟩⟩

theorem Quiet.trans {l₁ l₂ l₃ : DeterministicMNList} (h : Quiet env.serializeHash paid l₁ l₂)
    (h' : Quiet env.serializeHash paid l₂ l₃) : Quiet env.serializeHash paid l₁ l₃ := by
  refine ⟨h'.wf, h'.total.trans h.total, h'.blockHash.trans h.blockHash,
    h'.nHeight.trans h.nHeight, ?_, ?_⟩
  · intro p d₃ hd₃
    obtain ⟨d₂, hd₂, hs₂⟩ := h'.old hd₃
    obtain ⟨d₁, hd₁, hs₁⟩ := h.old hd₂
    exact ⟨d₁, hd₁, hs₁.trans hs₂⟩
  · intro p d₁ hd₁
    obtain ⟨d₂, hd₂, hs₁⟩ := h.kept hd₁
    obtain ⟨d₃, hd₃, hs₂⟩ := h'.kept hd₂
    exact ⟨d₃, hd₃, hs₁.trans hs₂⟩

/-- **A quiet pass.** Its steps work on different members; each completes, is quiet and touches
its own member only. `R` is what a step asks of its member. -/
theorem foldlM_quiet {α : Type} {f : DeterministicMNList → α → Outcome DeterministicMNList}
    {k : α → Uint256} {R : α → DeterministicMN → Prop}
    (hstep : ∀ {l : DeterministicMNList} {a d}, Wf env.serializeHash l → l.mnMap[k a]? = some d → R a d →
      ∃ l', f l a = .ok l' ∧ Quiet env.serializeHash paid l l' ∧ ∀ q, q ≠ k a → l'.mnMap[q]? = l.mnMap[q]?)
    (as : List α) (h : Wf env.serializeHash l) (hnodup : (as.map k).Nodup)
    (hmem : ∀ a ∈ as, ∃ d, l.mnMap[k a]? = some d ∧ R a d) :
    ∃ l', as.foldlM f l = .ok l' ∧ Quiet env.serializeHash paid l l' := by
  induction as generalizing l with
  | nil => exact ⟨l, rfl, .refl h⟩
  | cons a as ih =>
    rw [map_cons, nodup_cons] at hnodup
    obtain ⟨d, hget, hready⟩ := hmem a (by simp)
    obtain ⟨l₁, hfirst, hquiet, hothers⟩ := hstep h hget hready
    -- the members still to come are untouched
    obtain ⟨l', hrest, hquiet'⟩ := ih hquiet.wf hnodup.2 fun b hb => by
      rw [hothers _ fun heq => hnodup.1 (heq ▸ mem_map_of_mem hb)]
      exact hmem b (by simp [hb])
    refine ⟨l', ?_, hquiet.trans hquiet'⟩
    rwa [foldlM_cons, hfirst]

variable (hinj : Function.Injective env.serializeHash) (h : Wf env.serializeHash l)
include hinj h

/-- An update that keeps the identity of a member completes, is quiet and touches only the
member. -/
theorem updateMNByHash_quiet (hget : l.mnMap[p]? = some d) (hs : d.pdmnState.SameIdentity paid s) :
    ∃ l', l.updateMNByHash env.serializeHash p s = .ok l' ∧ Quiet env.serializeHash paid l l' ∧
      ∀ q, q ≠ p → l'.mnMap[q]? = l.mnMap[q]? := by
  have hsame : d.SameIdentity paid { d with pdmnState := s } := ⟨rfl, rfl, rfl, rfl, hs⟩
  obtain ⟨l', hr⟩ := updateMNByHash_run hinj h hget s fun v hv q hq hmem => by
    rw [hsame.uniqueProperties] at hv
    exact hq (h.owns.unique hmem (mem_owned.mpr ⟨d, hget, hv⟩))
  obtain ⟨d₀, hget₀, hwf, hmn, htotal, hhash, hheight⟩ := updateMNByHash_inv hinj h hr
  obtain rfl := Option.mem_unique hget₀ hget
  refine ⟨l', hr, ⟨hwf, htotal, hhash, hheight, ?_, ?_⟩,
    fun q hq => by rw [hmn, FMap.get_insert_ne (Ne.symm hq)]⟩
  · intro q d' hd'
    rw [hmn] at hd'
    rcases FMap.of_get_insert hd' with ⟨heq, rfl⟩ | ⟨-, hd'⟩
    · exact ⟨d₀, heq ▸ hget, hsame⟩
    · exact ⟨d', hd', .refl _⟩
  · intro q d₁ hd₁
    rw [hmn, FMap.get_insert]
    by_cases heq : p = q
    · subst heq
      obtain rfl := Option.mem_unique hget hd₁
      exact ⟨_, if_pos rfl, hsame⟩
    · exact ⟨d₁, by rw [if_neg heq]; exact hd₁, .refl _⟩

/-- One confirmation completes, is quiet and touches only its member. -/
theorem confirmMN_quiet (prev : PrevIndex) (hget : l.mnMap[d.proTxHash]? = some d) :
    ∃ l', confirmMN env prev l d = .ok l' ∧ Quiet env.serializeHash false l l' ∧
      ∀ q, q ≠ d.proTxHash → l'.mnMap[q]? = l.mnMap[q]? := by
  unfold confirmMN
  split_ifs
  · exact ⟨l, rfl, .refl h, fun _ _ => rfl⟩
  · exact updateMNByHash_quiet hinj h hget ⟨rfl, rfl, rfl, rfl, rfl, rfl, rfl, rfl, rfl, fun _ => rfl⟩
  · exact ⟨l, rfl, .refl h, fun _ _ => rfl⟩

/-- Decreasing the penalty of a penalized, valid member completes and is quiet. -/
theorem poSeDecrease_quiet (hget : l.mnMap[p]? = some d) (hpen : 0 < d.pdmnState.nPoSePenalty)
    (hban : d.pdmnState.nPoSeBanHeight = -1) :
    ∃ l', l.poSeDecrease env.serializeHash p = .ok l' ∧ Quiet env.serializeHash false l l' ∧
      ∀ q, q ≠ p → l'.mnMap[q]? = l.mnMap[q]? := by
  obtain ⟨l', hr, hquiet⟩ := updateMNByHash_quiet hinj h hget
    (s := { d.pdmnState with nPoSePenalty := d.pdmnState.nPoSePenalty - 1 })
    ⟨rfl, rfl, rfl, rfl, rfl, rfl, rfl, rfl, rfl, fun _ => rfl⟩
  refine ⟨l', ?_, hquiet⟩
  unfold poSeDecrease getMN
  rw [hget]
  exact bind_ok.mpr ⟨(), assert_ok.mpr (by simp [hpen, hban]), hr⟩

theorem decreasePoSePenalties_quiet :
    ∃ l', decreasePoSePenalties env l = .ok l' ∧ Quiet env.serializeHash false l l' := by
  unfold decreasePoSePenalties
  refine foldlM_quiet (k := id)
    (R := fun _ d => 0 < d.pdmnState.nPoSePenalty ∧ d.pdmnState.nPoSeBanHeight = -1)
    (fun hwf hget hd => poSeDecrease_quiet hinj hwf hget hd.1 hd.2) _ h ?_ ?_
  · rw [toDecrease, map_id, filter_filter]
    exact (h.nodup_members).sublist (filter_sublist.map _)
  · intro p hp
    unfold toDecrease at hp
    obtain ⟨d, hd, rfl⟩ := mem_map.mp hp
    rw [mem_filter, mem_filter] at hd
    obtain ⟨⟨hmem, -⟩, hcond⟩ := hd
    simp only [Bool.and_eq_true, decide_eq_true_eq, beq_iff_eq] at hcond
    exact ⟨d, h.mem_members.mp hmem, hcond.1, hcond.2⟩

/-- Recording the payment completes and is quiet. -/
theorem payPayee_quiet (nHeight : Int32) (payee : Option DeterministicMN) :
    ∃ l', payPayee env nHeight payee l = .ok l' ∧ Quiet env.serializeHash true l l' := by
  cases payee with
  | none => exact ⟨l, rfl, .refl h⟩
  | some payee =>
    unfold payPayee getMN
    cases hget : l.mnMap[payee.proTxHash]? with
    | none => exact ⟨l, by simp [hget], .refl h⟩
    | some d =>
      obtain ⟨l', hr, hquiet, -⟩ := updateMNByHash_quiet hinj h hget
        (show d.pdmnState.SameIdentity true { d.pdmnState with nLastPaidHeight := nHeight } from
          ⟨rfl, rfl, rfl, rfl, rfl, rfl, rfl, rfl, rfl, by simp⟩)
      exact ⟨l', by simpa [hget] using hr, hquiet⟩

/-! ### Removing by collateral -/

/-- `l'` is `l` without the member that has the collateral `c`. -/
structure WithoutCollateral (serializeHash : UniqueProperty → Nat) (c : OutPoint)
    (l l' : DeterministicMNList) : Prop where
  wf : Wf serializeHash l'
  total : l'.nTotalRegisteredCount = l.nTotalRegisteredCount
  blockHash : l'.blockHash = l.blockHash
  nHeight : l'.nHeight = l.nHeight
  mem : ∀ (p : Uint256) (d : DeterministicMN),
    l'.mnMap[p]? = some d ↔ l.mnMap[p]? = some d ∧ d.collateralOutpoint ≠ c

/-- What a completed removal did. -/
theorem removeReplaced_inv {c} (hr : removeReplaced env l c = .ok l') :
    WithoutCollateral env.serializeHash c l l' ∧
      ∀ (p : Uint256) d, l.mnMap[p]? = some d → d.collateralOutpoint = c →
        d.pdmnState.keyIDOperator ≠ 0 := by
  -- the lookup finds every member with the collateral
  have hfind : ∀ (p : Uint256) d, l.mnMap[p]? = some d → d.collateralOutpoint = c →
      l.getMNByCollateral env.serializeHash c = some d := fun p d hd hc =>
    h.getMNByCollateral_eq_some.mpr ⟨(h.key hd).symm ▸ hd, hc⟩
  unfold removeReplaced at hr
  cases hget : l.getMNByCollateral env.serializeHash c with
  | none =>
    rw [hget] at hr
    cases hr
    have hnone : ∀ (p : Uint256) d, l.mnMap[p]? = some d → d.collateralOutpoint ≠ c :=
      fun p d hd hc => by simp [hfind p d hd hc] at hget
    refine ⟨⟨h, rfl, rfl, rfl, fun p d => ?_⟩, fun p d hd hc => absurd hc (hnone p d hd)⟩
    exact ⟨fun hd => ⟨hd, hnone p d hd⟩, fun hd => hd.1⟩
  | some dmn =>
    rw [hget] at hr
    obtain ⟨hdmn, hc⟩ := h.getMNByCollateral_eq_some.mp hget
    obtain ⟨d₀, hd₀, -, hop, hwf, hmn, htotal, hhash, hheight⟩ := removeMN_inv hinj h hr
    obtain rfl := Option.mem_unique hd₀ hdmn
    -- nobody else has the collateral
    have huniq : ∀ (p : Uint256) d, l.mnMap[p]? = some d → d.collateralOutpoint = c → d = d₀ :=
      fun p d hd hdc => Option.mem_unique (hfind p d hd hdc) hget
    refine ⟨⟨hwf, htotal, hhash, hheight, fun p d => ?_⟩, fun p d hd hdc => huniq p d hd hdc ▸ hop⟩
    rw [hmn, FMap.get_erase]
    constructor
    · intro hd
      split_ifs at hd with heq
      refine ⟨hd, fun hdc => heq ?_⟩
      rw [← huniq p d hd hdc]
      exact h.key hd
    · rintro ⟨hd, hdc⟩
      rw [if_neg]
      · exact hd
      · rintro rfl
        exact hdc ((Option.mem_unique hd hdmn) ▸ hc)

/-- The removal completes when the member with the collateral, if any, has its keys. -/
theorem removeReplaced_run {c}
    (hkeys : ∀ (p : Uint256) d, l.mnMap[p]? = some d → d.collateralOutpoint = c → d.pdmnState.keyIDOwner ≠ 0 ∧ d.pdmnState.keyIDOperator ≠ 0)
    : ∃ l', removeReplaced env l c = .ok l' := by
  unfold removeReplaced
  cases hget : l.getMNByCollateral env.serializeHash c with
  | none => exact ⟨l, rfl⟩
  | some dmn =>
    obtain ⟨hdmn, hc⟩ := h.getMNByCollateral_eq_some.mp hget
    obtain ⟨howner, hoperator⟩ := hkeys _ _ hdmn hc
    exact removeMN_run hinj h hdmn howner hoperator

omit hinj in
/-- Spending an input removes the member with that collateral; the lookup by collateral
finds no other. -/
theorem spendInput_eq (txin : TxIn) :
    spendInput env l txin = removeReplaced env l txin.prevout := by
  unfold spendInput removeReplaced
  cases hget : l.getMNByCollateral env.serializeHash txin.prevout with
  | none => rfl
  | some dmn => exact if_pos (h.getMNByCollateral_eq_some.mp hget).2

/-! ### Special transactions -/

/-- The member that a registration adds. -/
def ProRegPL.newMN (pl : ProRegPL) (tx : Transaction) (internalId : UInt64) (nHeight : Int32) :
    DeterministicMN :=
  { proTxHash := tx.hash, internalId := internalId, collateralOutpoint := pl.collateral tx,
    nOperatorReward := pl.nOperatorReward, pdmnState := pl.initialState nHeight }

/-- `l'` is `l` with the member under `p` in the state `s`. -/
structure Updated (serializeHash : UniqueProperty → Nat) (l l' : DeterministicMNList)
    (p : Uint256) (d : DeterministicMN) (s : DeterministicMNState) : Prop where
  wf : Wf serializeHash l'
  get : l.mnMap[p]? = some d
  mnMap : l'.mnMap = l.mnMap.insert p { d with pdmnState := s }
  total : l'.nTotalRegisteredCount = l.nTotalRegisteredCount
  blockHash : l'.blockHash = l.blockHash
  nHeight : l'.nHeight = l.nHeight

/-- `l'` is `l` without the member that has the collateral of a registration (that is `l₁`),
and with the new member. -/
structure Registered (serializeHash : UniqueProperty → Nat) (nHeight : Int32) (tx : Transaction)
    (pl : ProRegPL) (l l₁ l' : DeterministicMNList) : Prop where
  without : WithoutCollateral serializeHash (pl.collateral tx) l l₁
  /-- The removed member had an operator key. -/
  keyed : ∀ (p : Uint256) d, l.mnMap[p]? = some d → d.collateralOutpoint = pl.collateral tx →
    d.pdmnState.keyIDOperator ≠ 0
  canAdd : CanAdd l₁ (pl.newMN tx l.nTotalRegisteredCount.toUInt64 nHeight)
  wf : Wf serializeHash l'
  mnMap : l'.mnMap = l₁.mnMap.insert tx.hash
    (pl.newMN tx l.nTotalRegisteredCount.toUInt64 nHeight)
  /-- The 64-bit successor of the counter is stored in 32 bits. -/
  total : l'.nTotalRegisteredCount =
    (max (l.nTotalRegisteredCount.toUInt64 + 1) l.nTotalRegisteredCount.toUInt64).toUInt32
  blockHash : l'.blockHash = l.blockHash
  nHeight : l'.nHeight = l.nHeight

/-- What a completed registration did. -/
theorem applyProReg_inv {prev} {nHeight} (hr : applyProReg env prev nHeight l tx = .ok l') :
    ∃ pl l₁, getTxPayload getProRegPL tx = some pl ∧
      Registered env.serializeHash nHeight tx pl l l₁ l' := by
  unfold applyProReg at hr
  split at hr
  · cases hr
  rename_i pl hpl
  obtain ⟨_, -, hr⟩ := bind_ok.mp hr
  obtain ⟨l₁, hrem, hr⟩ := bind_ok.mp hr
  iterate 3 obtain ⟨_, -, hr⟩ := bind_ok.mp hr
  obtain ⟨hwithout, hop⟩ := removeReplaced_inv hinj h hrem
  obtain ⟨hcan, hwf, hmn, htotal, hhash, hheight⟩ := addMN_inv hinj hwithout.wf hr
  refine ⟨pl, l₁, hpl, hwithout, hop, hcan, hwf, hmn, ?_, hhash.trans hwithout.blockHash,
    hheight.trans hwithout.nHeight⟩
  rw [htotal, totalAfterAdd, if_pos rfl, hwithout.total]

/-- The member and the change of state that an update transaction asks for. -/
def txUpdate (nHeight : Int32) (tx : Transaction) :
    Option (Uint256 × (DeterministicMNState → DeterministicMNState)) :=
  match tx.nType with
  | .proUpServ => (getTxPayload getProUpServPL tx).map fun pl => (pl.proTxHash, pl.newState nHeight)
  | .proUpReg => (getTxPayload getProUpRegPL tx).map fun pl => (pl.proTxHash, pl.newState nHeight)
  | .proUpRev => (getTxPayload getProUpRevPL tx).map fun pl => (pl.proTxHash, pl.newState nHeight)
  | _ => none

omit hinj h in
/-- The three kinds of updates. -/
theorem txUpdate_cases {nHeight} {tx} {p}
    {f : DeterministicMNState → DeterministicMNState} (hu : txUpdate nHeight tx = some (p, f)) :
    (∃ pl, tx.nType = .proUpServ ∧ getTxPayload getProUpServPL tx = some pl ∧ pl.proTxHash = p ∧
      pl.newState nHeight = f) ∨
    (∃ pl, tx.nType = .proUpReg ∧ getTxPayload getProUpRegPL tx = some pl ∧ pl.proTxHash = p ∧
      pl.newState nHeight = f) ∨
    ∃ pl, tx.nType = .proUpRev ∧ getTxPayload getProUpRevPL tx = some pl ∧ pl.proTxHash = p ∧
      pl.newState nHeight = f := by
  unfold txUpdate at hu
  cases htype : tx.nType <;>
    simp_all only [Option.map_eq_some_iff, Prod.mk.injEq, reduceCtorEq, false_and, true_and,
      exists_false, false_or, or_false]

theorem updateMNByHash_updated (hget : l.mnMap[p]? = some d)
    (hr : l.updateMNByHash env.serializeHash p s = .ok l') :
    Updated env.serializeHash l l' p d s := by
  obtain ⟨d₀, hget₀, hwf, hmn, htotal, hhash, hheight⟩ := updateMNByHash_inv hinj h hr
  obtain rfl := Option.mem_unique hget₀ hget
  exact ⟨hwf, hget, hmn, htotal, hhash, hheight⟩

/-- **What a completed transaction did**: a registration, an update of one member, or
nothing. -/
theorem applyTx_cases {prev} {nHeight} (hr : applyTx env prev nHeight l tx = .ok l') :
    (tx.nType = .proReg ∧ ∃ pl l₁, getTxPayload getProRegPL tx = some pl ∧
      Registered env.serializeHash nHeight tx pl l l₁ l') ∨
    (tx.nType ≠ .proReg ∧ ∃ p f d, txUpdate nHeight tx = some (p, f) ∧
      Updated env.serializeHash l l' p d (f d.pdmnState)) ∨
    (tx.nType ≠ .proReg ∧ txUpdate nHeight tx = none ∧ l' = l) := by
  unfold applyTx at hr
  cases htype : tx.nType with
  | normal | unknown n =>
    simp only [htype] at hr
    exact .inr (.inr ⟨by simp, by simp [txUpdate, htype], (Except.ok.inj hr).symm⟩)
  | proReg =>
    simp only [htype] at hr
    exact .inl ⟨rfl, applyProReg_inv hinj h hr⟩
  | proUpServ =>
    simp only [htype] at hr
    unfold applyProUpServ getMN at hr
    split at hr
    · cases hr
    rename_i pl hpl
    obtain ⟨dup, -, hr⟩ := bind_ok.mp hr
    obtain ⟨_, -, hr⟩ := bind_ok.mp hr
    split at hr
    · cases hr
    rename_i d hget
    obtain ⟨_, -, hr⟩ := bind_ok.mp hr
    exact .inr (.inl ⟨by simp, _, _, d, by simp [txUpdate, htype, hpl],
      updateMNByHash_updated hinj h hget hr⟩)
  | proUpReg =>
    simp only [htype] at hr
    unfold applyProUpReg getMN at hr
    split at hr
    · cases hr
    rename_i pl hpl
    split at hr
    · cases hr
    rename_i d hget
    obtain ⟨dup, -, hr⟩ := bind_ok.mp hr
    obtain ⟨_, -, hr⟩ := bind_ok.mp hr
    exact .inr (.inl ⟨by simp, _, _, d, by simp [txUpdate, htype, hpl],
      updateMNByHash_updated hinj h hget hr⟩)
  | proUpRev =>
    simp only [htype] at hr
    unfold applyProUpRev getMN at hr
    split at hr
    · cases hr
    rename_i pl hpl
    split at hr
    · cases hr
    rename_i d hget
    exact .inr (.inl ⟨by simp, _, _, d, by simp [txUpdate, htype, hpl],
      updateMNByHash_updated hinj h hget hr⟩)

/-- An update completes when the new address, owner key and operator key are each null, or
the member's own, or used by nobody else. -/
theorem updateMNByHash_run_of (hget : l.mnMap[p]? = some d) (s : DeterministicMNState)
    (haddr : s.addr = Service.null ∨ s.addr = d.pdmnState.addr ∨ ∀ q, q ≠ p → service s.addr ∉ l.owned q)
    (howner : s.keyIDOwner = d.pdmnState.keyIDOwner)
    (hoperator : s.keyIDOperator = 0 ∨ s.keyIDOperator = d.pdmnState.keyIDOperator ∨ ∀ q, q ≠ p → keyID s.keyIDOperator ∉ l.owned q)
    : ∃ l', l.updateMNByHash env.serializeHash p s = .ok l' := by
  -- a value of the member itself is not used by another
  have hown : ∀ v, v ∈ d.uniqueProperties → ∀ q, q ≠ p → v ∉ l.owned q := fun v hv q hq hmem =>
    hq (h.owns.unique hmem (mem_owned.mpr ⟨d, hget, hv⟩))
  refine updateMNByHash_run hinj h hget s fun v hv => ?_
  obtain ⟨hnull, hv⟩ := mem_uniqueProperties.mp hv
  rcases hv with rfl | rfl | rfl | rfl
  · exact hown _ (mem_uniqueProperties.mpr ⟨hnull, by simp⟩)
  · rcases haddr with h0 | hsame | hfree
    · simp [isNull, h0] at hnull
    · exact hown _ (mem_uniqueProperties.mpr ⟨hnull, by simp [hsame]⟩)
    · exact hfree
  · exact hown _ (mem_uniqueProperties.mpr ⟨hnull, by simp [howner]⟩)
  · rcases hoperator with h0 | hsame | hfree
    · simp [isNull, h0] at hnull
    · exact hown _ (mem_uniqueProperties.mpr ⟨hnull, by simp [hsame]⟩)
    · exact hfree

/-- A service update returns. -/
theorem applyProUpServ_returns (nHeight : Int32) (tx : Transaction) :
    Returns (applyProUpServ env nHeight l tx) := by
  unfold applyProUpServ
  cases getTxPayload getProUpServPL tx with
  | none => exact .reject _
  | some pl =>
    obtain ⟨b, hb, hheld⟩ := h.heldByOther_eq (.service pl.addr) pl.proTxHash
    refine bind (.inl ⟨b, hb⟩) fun dup hdup => ?_
    obtain rfl := ok_unique hb hdup
    refine bind (.rejectIf _ _) fun _ hok => ?_
    rw [rejectIf_ok] at hok
    subst hok
    unfold getMN
    cases hget : l.mnMap[pl.proTxHash]? with
    | none => exact .reject _
    | some d =>
      refine bind (.rejectIf _ _) fun _ _ => .inl ?_
      refine updateMNByHash_run_of hinj h hget _ (.inr (.inr fun q hq hmem => ?_)) (by simp)
        (by simp)
      rw [(pl.newState_fields _ _).1] at hmem
      exact absurd (hheld.mpr ⟨q, hq, hmem⟩) (by simp)

/-- A registrar update returns. -/
theorem applyProUpReg_returns (nHeight : Int32) (tx : Transaction) :
    Returns (applyProUpReg env nHeight l tx) := by
  unfold applyProUpReg
  cases getTxPayload getProUpRegPL tx with
  | none => exact .reject _
  | some pl =>
    unfold getMN
    cases hget : l.mnMap[pl.proTxHash]? with
    | none => simpa [hget] using reject _
    | some d =>
      simp only [hget]
      obtain ⟨b, hb, hheld⟩ := h.heldByOther_eq (.keyID pl.keyIDOperator) pl.proTxHash
      refine bind (.inl ⟨b, hb⟩) fun dup hdup => ?_
      obtain rfl := ok_unique hb hdup
      refine bind (.rejectIf _ _) fun _ hok => .inl ?_
      rw [rejectIf_ok] at hok
      subst hok
      refine updateMNByHash_run_of hinj h hget _ ?_ (by simp) (.inr (.inr fun q hq hmem => ?_))
      · rw [(pl.newState_fields _ _).1]
        split_ifs
        · exact .inl rfl
        · exact .inr (.inl rfl)
      · rw [(pl.newState_fields _ _).2.2.1] at hmem
        exact absurd (hheld.mpr ⟨q, hq, hmem⟩) (by simp)

/-- A revocation returns. -/
theorem applyProUpRev_returns (nHeight : Int32) (tx : Transaction) :
    Returns (applyProUpRev env nHeight l tx) := by
  unfold applyProUpRev
  cases getTxPayload getProUpRevPL tx with
  | none => exact .reject _
  | some pl =>
    unfold getMN
    cases hget : l.mnMap[pl.proTxHash]? with
    | none => simpa [hget] using reject _
    | some d =>
      simp only [hget]
      exact .inl (updateMNByHash_run_of hinj h hget _ (by simp) (by simp) (by simp))

/-- A registration returns when its payload passed the checks, the member with its
collateral has its keys, and its id and its hash are new. -/
theorem applyProReg_returns (prev : PrevIndex) (nHeight : Int32) {pl}
    (hpl : getTxPayload getProRegPL tx = some pl) (hchecked : ProRegChecked env tx prev pl)
    (hkeys : ∀ (p : Uint256) d, l.mnMap[p]? = some d → d.collateralOutpoint = pl.collateral tx → d.pdmnState.keyIDOwner ≠ 0 ∧ d.pdmnState.keyIDOperator ≠ 0)
    (hid : ∀ (p : Uint256) d, l.mnMap[p]? = some d → d.internalId ≠ l.nTotalRegisteredCount.toUInt64)
    (hhash : ∀ d, l.mnMap[tx.hash]? = some d → d.pdmnState.keyIDOwner = pl.keyIDOwner) :
    Returns (applyProReg env prev nHeight l tx) := by
  rw [applyProReg, hpl]
  refine bind ?_ fun _ _ => ?_
  · unfold checkExternalCoin
    split_ifs
    · exact .ok ()
    · split
      · exact .reject _
      · exact .rejectIf _ _
  obtain ⟨l₁, hrem⟩ := removeReplaced_run hinj h hkeys
  obtain ⟨hwithout, -⟩ := removeReplaced_inv hinj h hrem
  refine bind (.inl ⟨l₁, hrem⟩) fun l₂ hl₂ => ?_
  obtain rfl := ok_unique hrem hl₂
  refine bind (.rejectIf _ _) fun _ haddr => ?_
  refine bind (.rejectIf _ _) fun _ howner => ?_
  refine bind (.rejectIf _ _) fun _ hoperator => ?_
  rw [rejectIf_ok, hwithout.wf.hasUniqueProperty_false] at haddr howner hoperator
  refine .inl (addMN_run hinj hwithout.wf ⟨?_, ?_, ?_, ?_, hchecked.owner, hchecked.operator, ?_⟩ true)
  · -- a member with the same hash would have the same owner key
    cases hget : l₁.mnMap[tx.hash]? with
    | none => rfl
    | some d =>
      have hd := ((hwithout.mem _ _).mp hget).1
      refine absurd (mem_owned.mpr ⟨d, hget, ?_⟩) (howner tx.hash)
      rw [mem_uniqueProperties, hhash d hd]
      exact ⟨isNull_keyID.mpr hchecked.owner, by simp⟩
  · cases hget : l₁.mnInternalIdMap[l.nTotalRegisteredCount.toUInt64]? with
    | none => rfl
    | some p =>
      obtain ⟨d, hd, hdid⟩ := (hwithout.wf.ids _ _).mp hget
      exact absurd hdid (hid p d ((hwithout.mem _ _).mp hd).1)
  · have hlt := l.nTotalRegisteredCount.toNat_lt
    intro heq
    have hnat := congrArg UInt64.toNat heq
    simp [noInternalId] at hnat
    omega
  · have hlt := tx.vout_lt
    simp only [ProRegPL.collateral, OutPoint.null]
    split_ifs with hnull
    · have hidx := hchecked.index hnull
      intro heq
      have hn := congrArg (fun o => o.n.toNat) heq
      simp at hn
      omega
    · intro heq
      exact hnull (congrArg OutPoint.hash heq)
  · intro v hv q hq
    obtain ⟨hnull, hv⟩ := mem_uniqueProperties.mp hv
    rcases hv with rfl | rfl | rfl | rfl
    · obtain ⟨d, hd, hvd⟩ := mem_owned.mp hq
      have hcoll := (mem_uniqueProperties.mp hvd).2
      simp only [outpoint.injEq, reduceCtorEq, or_false] at hcoll
      exact ((hwithout.mem _ _).mp hd).2 hcoll.symm
    · exact haddr q hq
    · exact howner q hq
    · exact hoperator q hq

end KmushiCoin
