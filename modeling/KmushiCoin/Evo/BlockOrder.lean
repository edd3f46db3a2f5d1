import KmushiCoin.Evo.BuildListSound

/-!
# KmushiCoin.Evo.BlockOrder

**The order inside a block.** The special transactions of a block are checked against the
list of the previous block, but their effects are applied one after the other.

* `listBeforeTx` is the list that the transaction at a position meets;
* the counter of the registrations counts them in order (`listBeforeTx_total`,
  `build_total`);
* the owner key of a masternode is the same at every position, the operator key is not:
  `signedInOrder_iff` says when every update of a block is signed by the key that the
  masternode has at its position.
-/

namespace KmushiCoin

open Codec DeterministicMNList List Option

variable {env : Env}

/-! ### The list before a transaction -/

/-- The list after the transactions `0 .. i - 1` of a block; the first one is skipped. -/
def listBeforeTx (env : Env) (vtx : List Transaction) (prev : PrevIndex) (i : Nat) :
    Outcome DeterministicMNList := do
  let newList := (prev.mnList.setBlockHash 0).setHeight (prev.nHeight + 1)
  let newList ← prev.mnList.members.foldlM (confirmMN env prev) newList
  let newList ← decreasePoSePenalties env newList
  (vtx.take i).tail.foldlM (applyTx env prev (prev.nHeight + 1)) newList

variable {vtx txs : List Transaction} {i n : Nat} {prev : PrevIndex} {l l' : DeterministicMNList}
  {nHeight : Int32} {p : Uint256}

/-- The transactions after the first one, split at a position. -/
theorem tail_eq_take_tail_append {tx} (hi : 0 < i) (htx : vtx[i]? = some tx) :
    vtx.tail = (vtx.take i).tail ++ tx :: vtx.drop (i + 1) := by
  obtain ⟨hlt, rfl⟩ := List.getElem?_eq_some_iff.mp htx
  cases vtx with
  | nil => simp at hlt
  | cons t vtx =>
    obtain ⟨j, rfl⟩ := Nat.exists_eq_succ_of_ne_zero hi.ne'
    simp

section
variable (hinj : Function.Injective env.serializeHash)
include hinj

/-- The list before a transaction keeps every invariant of the block. -/
theorem BlockInv.before {P : List Transaction → List TxIn → DeterministicMNList → Prop}
    (h : BlockInv env prev vtx P) (hwf : Wf env.serializeHash prev.mnList) {tx}
    (hi : 0 < i) (htx : vtx[i]? = some tx) (hl : listBeforeTx env vtx prev i = .ok l) :
    Wf env.serializeHash l ∧ P (vtx.take i).tail [] l := by
  obtain ⟨l₁, l₂, hconfirm, hdecrease, hquiet⟩ := build_opening hinj hwf
  unfold listBeforeTx at hl
  obtain ⟨l₁', hconfirm', hl⟩ := bind_ok.mp hl
  obtain rfl := ok_unique hconfirm hconfirm'
  obtain ⟨l₂', hdecrease', hl⟩ := bind_ok.mp hl
  obtain rfl := ok_unique hdecrease hdecrease'
  exact h.txs hinj (tail_eq_take_tail_append hi htx) hquiet.wf (h.opening l₂ hquiet) hl

omit hinj in
/-- In a block with a list every transaction was applied to the list before it. -/
theorem build_before (hr : buildNewListFromBlock env vtx prev = .ok l') {tx}
    (hi : 0 < i) (htx : vtx[i]? = some tx) : ∃ l l₁, listBeforeTx env vtx prev i = .ok l ∧
      applyTx env prev (prev.nHeight + 1) l tx = .ok l₁ := by
  unfold buildNewListFromBlock at hr
  obtain ⟨l₁, hconfirm, hr⟩ := bind_ok.mp hr
  obtain ⟨l₂, hdecrease, hr⟩ := bind_ok.mp hr
  obtain ⟨l₃, happly, -⟩ := bind_ok.mp hr
  rw [tail_eq_take_tail_append hi htx, foldlM_append] at happly
  obtain ⟨l, hl, happly⟩ := bind_ok.mp happly
  obtain ⟨l₄, htx, -⟩ := bind_ok.mp happly
  exact ⟨l, l₄, bind_ok.mpr ⟨l₁, hconfirm, bind_ok.mpr ⟨l₂, hdecrease, hl⟩⟩, htx⟩

/-! ### The counter and the height -/

/-- The counter counts the registrations of the block. -/
theorem Registry.blockInv_total (h : Registry env txs n prev.mnList)
    (hpass : SpecialTxsPass env vtx prev) (hn : n + regCount vtx < 2 ^ 32) :
    BlockInv env prev vtx fun pre _ l => Registry env (txs ++ vtx) (n + regCount pre) l ∧
      l.nTotalRegisteredCount.toNat = prev.mnList.nTotalRegisteredCount.toNat + regCount pre where
  opening l hquiet :=
    ⟨(h.blockInv hinj hpass hn).opening l hquiet, by rw [hquiet.total]; rfl⟩
  tx pre tx post l l' hsplit hwf hpre hstep := by
    obtain ⟨hreg, htotal⟩ := hpre
    refine ⟨(h.blockInv hinj hpass hn).tx pre tx post l l' hsplit hwf hreg hstep, ?_⟩
    have hle := h.total
    have htail := regCount_tail_le vtx
    have hcount : regCount vtx.tail = regCount pre + (regCount [tx] + regCount post) := by
      rw [hsplit, ← regCount_append, singleton_append, regCount_append]
    rw [regCount_append]
    rcases applyTx_cases hinj hwf hstep with ⟨htype, pl, l₁, -, hregd⟩ |
      ⟨htype, p, f, d, -, hupd⟩ | ⟨htype, -, rfl⟩
    · have hone : regCount [tx] = 1 := by simp [regCount, htype]
      rw [hregd.total, Registry.total_succ (by omega), htotal, hone, Nat.add_assoc]
    · have hzero : regCount [tx] = 0 := by simp [regCount, htype]
      rw [hupd.total, htotal, hzero, Nat.add_zero]
    · have hzero : regCount [tx] = 0 := by simp [regCount, htype]
      rw [htotal, hzero, Nat.add_zero]
  spend _ _ _ _ _ _ hpre hw := ⟨hpre.1.without hw, by rw [hw.total]; exact hpre.2⟩

/-- **The counter after a block** is the one before it and the registrations of the block. -/
theorem build_total (hreg : Registry env txs n prev.mnList) (hpass : SpecialTxsPass env vtx prev)
    (hn : n + regCount vtx < 2 ^ 32) (hr : buildNewListFromBlock env vtx prev = .ok l') :
    l'.nTotalRegisteredCount.toNat =
      prev.mnList.nTotalRegisteredCount.toNat + regCount vtx.tail := by
  refine ((hreg.blockInv_total hinj hpass hn).build hinj hreg.wf ?_ hr).2
  exact fun l l' hpre hquiet => ⟨hpre.1.quiet hquiet, by rw [hquiet.total]; exact hpre.2⟩

/-- The list of a block has the height of the block. -/
theorem build_nHeight (hwf : Wf env.serializeHash prev.mnList)
    (hr : buildNewListFromBlock env vtx prev = .ok l') : l'.nHeight = prev.nHeight + 1 := by
  have hinv : BlockInv env prev vtx fun _ _ l => l.nHeight = prev.nHeight + 1 := by
    refine ⟨fun l hquiet => hquiet.nHeight, ?_, fun _ _ _ _ _ _ h hw => hw.nHeight.trans h⟩
    intro pre tx post l l' _ hwf hheight hstep
    rcases applyTx_cases hinj hwf hstep with ⟨-, pl, lw, -, hregd⟩ |
      ⟨-, p, f, d, -, hupd⟩ | ⟨-, -, rfl⟩
    · exact hregd.nHeight.trans hheight
    · exact hupd.nHeight.trans hheight
    · exact hheight
  exact hinv.build hinj hwf (fun _ _ h hquiet => hquiet.nHeight.trans h) hr

end

/-! ### Keys and signatures -/

/-- The masternode that a transaction changes in the name of its operator. -/
def operatorSigns (tx : Transaction) : Option Uint256 :=
  match tx.nType with
  | .proUpServ => (getTxPayload getProUpServPL tx).map ProUpServPL.proTxHash
  | .proUpRev => (getTxPayload getProUpRevPL tx).map ProUpRevPL.proTxHash
  | _ => none

/-- The transaction, if it is an update, is signed by the key that the masternode has in the
list: the owner key for a registrar update, the operator key for the others. -/
def signedIn (env : Env) (l : DeterministicMNList) (tx : Transaction) : Bool :=
  match tx.nType with
  | .proUpServ => (getTxPayload getProUpServPL tx).any fun pl => (l.getMN pl.proTxHash).any fun d =>
    env.verifyHash pl.signed d.pdmnState.keyIDOperator pl.vchSig
  | .proUpReg => (getTxPayload getProUpRegPL tx).any fun pl => (l.getMN pl.proTxHash).any fun d =>
    env.verifyHash pl.signed d.pdmnState.keyIDOwner pl.vchSig
  | .proUpRev => (getTxPayload getProUpRevPL tx).any fun pl => (l.getMN pl.proTxHash).any fun d =>
    env.verifyHash pl.signed d.pdmnState.keyIDOperator pl.vchSig
  | _ => true

/-- **Every update of a block is signed by the key that the masternode has at its position.** -/
def SignedInOrder (env : Env) (vtx : List Transaction) (prev : PrevIndex) : Prop :=
  ∀ i tx, 0 < i → vtx[i]? = some tx →
    ∃ l, listBeforeTx env vtx prev i = .ok l ∧ signedIn env l tx = true

/-- The operator key of a masternode after a transaction. -/
def operatorKeyStep (p : Uint256) (key : KeyID) (tx : Transaction) : KeyID :=
  match tx.nType with
  | .proReg =>
    match getTxPayload getProRegPL tx with
    | none => key
    | some pl => if tx.hash = p then pl.keyIDOperator else key
  | .proUpReg =>
    match getTxPayload getProUpRegPL tx with
    | none => key
    | some pl => if pl.proTxHash = p then pl.keyIDOperator else key
  | .proUpRev =>
    match getTxPayload getProUpRevPL tx with
    | none => key
    | some pl => if pl.proTxHash = p then 0 else key
  | _ => key

/-- The operator key of a masternode after some transactions. -/
def operatorKeyAfter (txs : List Transaction) (p : Uint256) (key : KeyID) : KeyID :=
  txs.foldl (operatorKeyStep p) key

/-- **No operator acts after its key was replaced in the same block**: where a transaction is
signed by the operator of a masternode, the earlier transactions of the block leave the
masternode with the operator key that it has in the previous list. -/
def KeysSettled (l : DeterministicMNList) (vtx : List Transaction) : Prop :=
  ∀ pre tx post p d, vtx.tail = pre ++ tx :: post → operatorSigns tx = some p →
    l.mnMap[p]? = some d →
    operatorKeyAfter pre p d.pdmnState.keyIDOperator = d.pdmnState.keyIDOperator

/-- The members that were already in `l₀` have the operator keys that the transactions gave
them, and their owner keys. -/
def KeysTracked (l₀ : DeterministicMNList) (txs : List Transaction) (l : DeterministicMNList) :
    Prop :=
  ∀ (p : Uint256) (d₀ d : DeterministicMN), l₀.mnMap[p]? = some d₀ → l.mnMap[p]? = some d →
    d.pdmnState.keyIDOperator = operatorKeyAfter txs p d₀.pdmnState.keyIDOperator ∧
      d.pdmnState.keyIDOwner = d₀.pdmnState.keyIDOwner

/-- An update sets the operator key of its masternode as `operatorKeyStep` says, and leaves
the owner key. -/
theorem operatorKeyStep_update {tx} {f : DeterministicMNState → DeterministicMNState}
    (hu : txUpdate nHeight tx = some (p, f)) :
    (∀ s, (f s).keyIDOperator = operatorKeyStep p s.keyIDOperator tx ∧
      (f s).keyIDOwner = s.keyIDOwner) ∧ ∀ q key, q ≠ p → operatorKeyStep q key tx = key := by
  unfold operatorKeyStep
  obtain ⟨pl, htype, -, rfl, rfl⟩ | ⟨pl, htype, hpl, rfl, rfl⟩ | ⟨pl, htype, hpl, rfl, rfl⟩ :=
    txUpdate_cases hu
  · simp [htype]
  · simp only [htype, hpl]
    exact ⟨by simp, fun q key hq => if_neg (Ne.symm hq)⟩
  · simp only [htype, hpl]
    exact ⟨by simp, fun q key hq => if_neg (Ne.symm hq)⟩

/-- A transaction that updates nobody and registers nobody leaves all keys. -/
theorem operatorKeyStep_none {tx} (htype : tx.nType ≠ .proReg)
    (hu : txUpdate nHeight tx = none) (p : Uint256) (key : KeyID) :
    operatorKeyStep p key tx = key := by
  unfold txUpdate at hu
  unfold operatorKeyStep
  cases ht : tx.nType with
  | proReg => exact absurd ht htype
  | proUpReg | proUpRev =>
    simp only [ht, map_eq_none_iff] at hu
    simp [hu]
  | normal | proUpServ | unknown n => rfl

section
variable (hinj : Function.Injective env.serializeHash)
include hinj

/-- One transaction keeps the keys tracked. -/
theorem KeysTracked.tx {pre} {l₀}
    (hreg : Registry env txs n l₀) (hident : HashesIdentify txs) {tx} (htx : tx ∈ txs)
    (hwf : Wf env.serializeHash l) (h : KeysTracked l₀ pre l)
    (hstep : applyTx env prev nHeight l tx = .ok l') : KeysTracked l₀ (pre ++ [tx]) l' := by
  intro p d₀ d hd₀ hd
  rw [operatorKeyAfter, foldl_concat, ← operatorKeyAfter]
  rcases applyTx_cases hinj hwf hstep with ⟨htype, pl, l₁, hpl, hregd⟩ |
    ⟨htype, q, f, e, hu, hupd⟩ | ⟨htype, hu, rfl⟩
  · rw [hregd.mnMap, FMap.get_insert] at hd
    simp only [operatorKeyStep, htype, hpl]
    split_ifs at hd ⊢ with heq
    · -- registered again: the transaction is the one that registered it before
      cases hd
      obtain ⟨tx₀, htx₀, hhash, pl₀, hpl₀, howner, -⟩ := hreg.origin hd₀
      obtain rfl := hident tx₀ htx₀ tx htx (hhash.trans heq.symm)
      obtain rfl := mem_unique hpl₀ hpl
      exact ⟨rfl, howner⟩
    · exact h p d₀ d hd₀ ((hregd.without.mem _ _).mp hd).1
  · obtain ⟨hself, hothers⟩ := operatorKeyStep_update hu
    rw [hupd.mnMap] at hd
    rcases FMap.of_get_insert hd with ⟨rfl, rfl⟩ | ⟨heq, hd⟩
    · obtain ⟨hoperator, howner⟩ := h q d₀ e hd₀ hupd.get
      obtain ⟨hop, how⟩ := hself e.pdmnState
      exact ⟨hop.trans (by rw [hoperator]), how.trans howner⟩
    · rw [hothers p _ (Ne.symm heq)]
      exact h p d₀ d hd₀ hd
  · rw [operatorKeyStep_none htype hu]
    exact h p d₀ d hd₀ hd

/-- The keys before a transaction of a block. -/
theorem listBeforeTx_keys (hreg : Registry env txs n prev.mnList)
    (hident : HashesIdentify (txs ++ vtx)) {tx} (hi : 0 < i) (htx : vtx[i]? = some tx)
    (hl : listBeforeTx env vtx prev i = .ok l) :
    Wf env.serializeHash l ∧ KeysTracked prev.mnList (vtx.take i).tail l := by
  have hreg' : Registry env (txs ++ vtx) n prev.mnList :=
    hreg.mono (fun tx htx => mem_append_left _ htx) le_rfl
  have hinv : BlockInv env prev vtx fun pre _ l => KeysTracked prev.mnList pre l := by
    refine ⟨?_, ?_, ?_⟩
    · intro l hquiet p d₀ d hd₀ hd
      obtain ⟨d₁, hd₁, hsame⟩ := hquiet.old hd
      obtain rfl := mem_unique hd₁ hd₀
      exact ⟨hsame.state.keyIDOperator, hsame.state.keyIDOwner⟩
    · intro pre tx post l l' hsplit hwf hpre hstep
      have htx : tx ∈ vtx := mem_of_mem_tail (by simp [hsplit])
      exact hpre.tx hinj hreg' hident (mem_append_right _ htx) hwf hstep
    · exact fun pre txin post l l' _ hpre hw p d₀ d hd₀ hd =>
        hpre p d₀ d hd₀ ((hw.mem p d).mp hd).1
  exact hinv.before hinj hreg.wf hi htx hl

omit hinj in
/-- A transaction in the name of an operator: what is signed, and that the operator key of
the previous list signed it. -/
theorem operatorSigns_checked {tx} (hpass : checkSpecialTx env tx prev = .ok ())
    (hsigns : operatorSigns tx = some p) : ∃ signed vchSig,
      (∀ l : DeterministicMNList, signedIn env l tx = true ↔
        ∃ d, l.mnMap[p]? = some d ∧ env.verifyHash signed d.pdmnState.keyIDOperator vchSig = true) ∧
      ∃ d, prev.mnList.mnMap[p]? = some d ∧
        env.verifyHash signed d.pdmnState.keyIDOperator vchSig = true := by
  have h := checkSpecialTx_type hpass
  unfold operatorSigns at hsigns
  unfold signedIn
  cases htype : tx.nType with
  | proUpServ =>
    simp only [htype] at hsigns ⊢
    simp only [checkSpecialTxType, htype] at h
    obtain ⟨pl, hpl, hchecked⟩ := checkProUpServTx_inv h
    obtain rfl : pl.proTxHash = p := by simpa [hpl] using hsigns
    obtain ⟨mn, hmn⟩ := hchecked.member
    exact ⟨pl.signed, pl.vchSig, by simp [hpl, getMN, Option.any_eq_true],
      mn, hmn, hchecked.signed mn hmn⟩
  | proUpRev =>
    simp only [htype] at hsigns ⊢
    simp only [checkSpecialTxType, htype] at h
    obtain ⟨pl, hpl, hchecked⟩ := checkProUpRevTx_inv h
    obtain rfl : pl.proTxHash = p := by simpa [hpl] using hsigns
    obtain ⟨mn, hmn⟩ := hchecked.member
    exact ⟨pl.signed, pl.vchSig, by simp [hpl, getMN, Option.any_eq_true],
      mn, hmn, hchecked.signed mn hmn⟩
  | proUpReg => simp [htype] at hsigns
  | normal => simp [htype] at hsigns
  | proReg => simp [htype] at hsigns
  | unknown n => simp [htype] at hsigns

/-- The other transactions are signed by a key that does not change. -/
theorem signedIn_of_not_operator {tx} (hpass : checkSpecialTx env tx prev = .ok ())
    (hsigns : operatorSigns tx = none) (hwf : Wf env.serializeHash l)
    (hstep : applyTx env prev nHeight l tx = .ok l')
    (howner : ∀ (p : Uint256) (d₀ d : DeterministicMN), prev.mnList.mnMap[p]? = some d₀ → l.mnMap[p]? = some d → d.pdmnState.keyIDOwner = d₀.pdmnState.keyIDOwner) :
    signedIn env l tx = true := by
  have h := checkSpecialTx_type hpass
  unfold operatorSigns at hsigns
  unfold signedIn
  cases htype : tx.nType with
  | proUpReg =>
    simp only [checkSpecialTxType, htype] at h
    obtain ⟨pl, hpl, hchecked⟩ := checkProUpRegTx_inv h
    obtain ⟨mn, hmn⟩ := hchecked.member
    rcases applyTx_cases hinj hwf hstep with ⟨hreg, -⟩ | ⟨-, p, f, d, hu, hupd⟩ | ⟨-, hu, -⟩
    · simp [htype] at hreg
    · simp only [txUpdate, htype, hpl, map_some, some.injEq] at hu
      obtain ⟨rfl, -⟩ := Prod.mk.inj hu
      have hsigned := hchecked.signed mn hmn
      rw [← howner pl.proTxHash mn d hmn hupd.get] at hsigned
      simp [hpl, getMN, hupd.get, hsigned]
    · simp [txUpdate, htype, hpl] at hu
  | proUpServ =>
    simp only [checkSpecialTxType, htype] at h
    obtain ⟨pl, hpl, -⟩ := checkProUpServTx_inv h
    simp [htype, hpl] at hsigns
  | proUpRev =>
    simp only [checkSpecialTxType, htype] at h
    obtain ⟨pl, hpl, -⟩ := checkProUpRevTx_inv h
    simp [htype, hpl] at hsigns
  | normal => rfl
  | proReg => rfl
  | unknown n => rfl

/-- A masternode that an operator's transaction changes is in the list before it. -/
theorem operatorSigns_member {tx} (hsigns : operatorSigns tx = some p)
    (hwf : Wf env.serializeHash l) (hstep : applyTx env prev nHeight l tx = .ok l') :
    ∃ d, l.mnMap[p]? = some d := by
  have hupdate : tx.nType ≠ .proReg ∧ ∃ f, txUpdate nHeight tx = some (p, f) := by
    unfold operatorSigns at hsigns
    unfold txUpdate
    cases htype : tx.nType with
    | proUpServ =>
      simp only [htype] at hsigns ⊢
      obtain ⟨pl, hpl, rfl⟩ := map_eq_some_iff.mp hsigns
      exact ⟨by simp, pl.newState nHeight, by simp [hpl]⟩
    | proUpRev =>
      simp only [htype] at hsigns ⊢
      obtain ⟨pl, hpl, rfl⟩ := map_eq_some_iff.mp hsigns
      exact ⟨by simp, pl.newState nHeight, by simp [hpl]⟩
    | proUpReg => simp [htype] at hsigns
    | normal => simp [htype] at hsigns
    | proReg => simp [htype] at hsigns
    | unknown n => simp [htype] at hsigns
  obtain ⟨htype, f, hf⟩ := hupdate
  rcases applyTx_cases hinj hwf hstep with ⟨hreg, -⟩ | ⟨-, q, g, d, hu, hupd⟩ | ⟨-, hu, -⟩
  · exact absurd hreg htype
  · obtain ⟨rfl, -⟩ := Prod.mk.inj (mem_unique hf hu)
    exact ⟨d, hupd.get⟩
  · simp [hf] at hu

/-- **Every update of an accepted block is signed by the key that the masternode has at its
position exactly if no operator acts after its key was replaced in the block.** A signature
is one of at most one key: the key is recovered from it. -/
theorem signedInOrder_iff
    (hsig : ∀ signed key key' vchSig, env.verifyHash signed key vchSig = true →
      env.verifyHash signed key' vchSig = true → key = key')
    {txs vtx : List Transaction} {prev : PrevIndex} {l' : DeterministicMNList}
    (hchain : ChainList env txs prev.nHeight prev.mnList) (hpass : SpecialTxsPass env vtx prev)
    (hident : HashesIdentify (txs ++ vtx)) (hcount : regCount txs < 2 ^ 32)
    (hr : buildNewListFromBlock env vtx prev = .ok l') :
    SignedInOrder env vtx prev ↔ KeysSettled prev.mnList vtx := by
  have hreg := hchain.registry hinj hcount
  constructor
  · intro h pre tx post p d hsplit hsigns hd
    -- the position of the transaction in the block
    have htake : (vtx.take (pre.length + 1)).tail = pre := by
      cases vtx with
      | nil => simp at hsplit
      | cons t vtx =>
        rw [List.tail_cons] at hsplit
        simp [hsplit]
    have htx : vtx[pre.length + 1]? = some tx := by
      rw [← List.getElem?_tail, hsplit]
      simp
    obtain ⟨l, hl, hs⟩ := h (pre.length + 1) tx (Nat.succ_pos _) htx
    have hkeys := (listBeforeTx_keys hinj hreg hident (Nat.succ_pos _) htx hl).2
    rw [htake] at hkeys
    obtain ⟨signed, vchSig, hiff, d₀, hd₀, hver₀⟩ := operatorSigns_checked
      (hpass tx (List.mem_of_getElem? htx)) hsigns
    obtain rfl := Option.mem_unique hd₀ hd
    obtain ⟨e, he, hver⟩ := (hiff l).mp hs
    rw [← (hkeys p d₀ e hd he).1]
    exact hsig signed _ _ vchSig hver hver₀
  · intro h i tx hi htx
    obtain ⟨l, l₁, hl, hstep⟩ := build_before hr hi htx
    obtain ⟨hwf, hkeys⟩ := listBeforeTx_keys hinj hreg hident hi htx hl
    refine ⟨l, hl, ?_⟩
    have hp := hpass tx (List.mem_of_getElem? htx)
    cases hsigns : operatorSigns tx with
    | none =>
      exact signedIn_of_not_operator hinj hp hsigns hwf hstep fun p d₀ d hd₀ hd =>
        (hkeys p d₀ d hd₀ hd).2
    | some p =>
      obtain ⟨signed, vchSig, hiff, d₀, hd₀, hver₀⟩ := operatorSigns_checked hp hsigns
      obtain ⟨d, hd⟩ := operatorSigns_member hinj hsigns hwf hstep
      refine (hiff l).mpr ⟨d, hd, ?_⟩
      have hsettled := h _ tx _ p d₀ (tail_eq_take_tail_append hi htx) hsigns hd₀
      rw [(hkeys p d₀ d hd₀ hd).1, hsettled]
      exact hver₀

end

/-! ### An operator that acts after its key was replaced -/

namespace Sample

/-- A network on which the signature of a key is the key itself. -/
def signing : Env := { regtest with verifyHash := fun _ key vchSig => vchSig == putKeyID key }

def signingRegistered : PrevIndex := nextIndex signing started 100 [coinbase, register]

/-- The owner replaces the operator key 2 by 6. -/
def replaceOperator : Transaction :=
  { revoke with
    hash := 30, nType := .proUpReg, vin := [⟨⟨7, 2⟩, []⟩]
    extraPayload := some (putProUpRegPL
      { proTxHash := 2, keyIDOperator := 6, keyIDVoting := 3, scriptPayout := p2pkh 4,
        inputsHash := 0, vchSig := putKeyID 1 }) }

/-- The operator with the key 2 gives the masternode an address. -/
def updateService : Transaction :=
  { revoke with
    hash := 31, nType := .proUpServ, vin := [⟨⟨7, 3⟩, []⟩]
    extraPayload := some (putProUpServPL
      { proTxHash := 2, addr := ⟨5, 5⟩, inputsHash := 0, vchSig := putKeyID 2 }) }

theorem signingRegistered_chain :
    ChainList signing [coinbase, register] signingRegistered.nHeight signingRegistered.mnList :=
  have hstart : ChainList signing [] started.nHeight started.mnList := .start 90 9
  hstart.extend 100 (by decide +kernel) (by decide +kernel)

theorem signing_unique (signed : Bytes) (key key' : KeyID) (vchSig : Bytes)
    (h : signing.verifyHash signed key vchSig = true)
    (h' : signing.verifyHash signed key' vchSig = true) : key = key' := by
  have h₁ : vchSig = putKeyID key := by simpa [signing] using h
  have h₂ : vchSig = putKeyID key' := by simpa [signing] using h'
  have hread := reads_keyID key []
  rw [← h₁, h₂, reads_keyID key' []] at hread
  exact (Prod.mk.inj (Except.ok.inj hread)).1.symm

end Sample

open Sample

/-- The service update alone is signed by the current key. -/
theorem updateService_signedInOrder :
    SignedInOrder signing [coinbase, updateService] signingRegistered := by
  have hok : (buildNewListFromBlock signing
      [coinbase, updateService] signingRegistered).isOk = true := by
    decide +kernel
  obtain ⟨l, hl⟩ := exists_ok_of_isOk hok
  refine (signedInOrder_iff UniqueProperty.numbering_injective signing_unique
    signingRegistered_chain (by decide +kernel) (by unfold HashesIdentify; decide +kernel)
    (by decide) hl).mpr ?_
  intro pre tx post p d hsplit _ _
  -- there is no earlier transaction
  cases pre with
  | nil => rfl
  | cons t pre => simp at hsplit

/-- **The replaced operator key changes the masternode**: the block is accepted, and the
second transaction is not signed by the key that the first one set. -/
theorem replaced_operator_accepted :
    ChainList signing [coinbase, register] signingRegistered.nHeight signingRegistered.mnList ∧
    SpecialTxsPass signing [coinbase, replaceOperator, updateService] signingRegistered ∧
    (buildNewListFromBlock signing [coinbase, replaceOperator, updateService]
      signingRegistered).isOk = true ∧ ¬ SignedInOrder signing
      [coinbase, replaceOperator, updateService] signingRegistered := by
  refine ⟨signingRegistered_chain, by decide +kernel, by decide +kernel, fun h => ?_⟩
  obtain ⟨l, hl, hs⟩ := h 2 updateService (by decide) rfl
  have hfalse : ∀ l, listBeforeTx signing
      [coinbase, replaceOperator, updateService] signingRegistered 2 =
        .ok l → signedIn signing l updateService = false := by
    decide +kernel
  rw [hfalse l hl] at hs
  cases hs

end KmushiCoin
