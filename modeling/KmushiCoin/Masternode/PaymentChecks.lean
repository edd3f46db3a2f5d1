import KmushiCoin.Masternode.Payments

/-!
# KmushiCoin.Masternode.PaymentChecks

**What the payment checks depend on.** Each check is split into its verdict, a function of the
block, the state of the node and the variables of the process, and what it leaves in these
variables (`exec_isBlockPayeeValid`, `exec_isCoinbaseValueValid`).

Then the two-run question: does a verdict depend on what was validated before? A `Validated`
value of the variables is one that some sequence of earlier checks leaves. Two verdicts can
depend on it:

* the amount of a coinbase is compared with the masternode payment at the height of the last
  block whose **legacy payee** was checked, which need not be the height of the block;
* a budget payment counts as made already when the **first** block in which the proposal was
  seen is another block of the active chain.

`verdicts_eq_iff` says exactly when neither matters.
-/

namespace KmushiCoin

open BudgetManager PaymentGlobals Prog FinalizedBudget

section
variable (params : NetworkParams) (st : PaymentsState)

/-! ### Verdicts -/

/-- The verdict on the masternode payment. -/
def masternodePaid (nBlockHeight : Int) (vout : List TxOut) : Bool :=
  if st.legacyMNObsolete nBlockHeight then
    match getMasternodeTxOuts params st nBlockHeight with
    | none => true
    | some vecMnOuts => vecMnOuts.all fun o => decide (o ∈ vout)
  else
    match st.mapMasternodeBlocks.blocks[nBlockHeight]? with
    | none => true
    | some payees => payees.isTransactionValid params vout

/-- The height that the check of the masternode payment leaves. -/
def checkedHeight (nBlockHeight nHeight_val : Int) : Int :=
  if st.legacyMNObsolete nBlockHeight = false ∧
      st.mapMasternodeBlocks.blocks[nBlockHeight]?.isSome = true then nBlockHeight
  else nHeight_val

def isSuperblock (nBlockHeight : Int) : Bool :=
  st.spork13 && st.budgetman.isBudgetPaymentBlock nBlockHeight

/-- The check of the budget payment against a history. -/
def budgetCheck (nBlockHash : Uint256) (nBlockHeight : Int) (vout : List TxOut)
    (history : PaymentHistory) : TrxValidationStatus × PaymentHistory :=
  st.budgetman.isTransactionValid (fun h => (st.activeHeight h).isSome) vout nBlockHash
    nBlockHeight history

/-- The budget payment is made, for the first time. -/
def budgetPaid (nBlockHash : Uint256) (nBlockHeight : Int) (vout : List TxOut)
    (history : PaymentHistory) : Bool :=
  isSuperblock st nBlockHeight && (budgetCheck st nBlockHash nBlockHeight vout history).1 == .valid

/-- The verdict without a budget payment. -/
def payeeFallback (nBlockHeight : Int) (vout : List TxOut) : Bool :=
  !(isSuperblock st nBlockHeight && st.spork9) &&
    (masternodePaid params st nBlockHeight vout || !st.spork8)

def payeeVerdict (nBlockHash : Uint256) (nBlockHeight : Int) (vout : List TxOut)
    (history : PaymentHistory) : Bool :=
  budgetPaid st nBlockHash nBlockHeight vout history || payeeFallback params st nBlockHeight vout

/-- Whether an amount passes for the masternode payment. -/
def amountAccepted (nCBaseOutAmt nMnAmt : Int) : Bool :=
  if st.spork8 then decide (nCBaseOutAmt = nMnAmt) else decide (nCBaseOutAmt ≤ nMnAmt)

/-- The verdict on a coinbase, with the masternode payment to compare with. -/
def coinbaseVerdict (tx : Transaction) (nBudgetAmt nMnAmt : Int) : Outcome Unit := do
  assert tx.isCoinBase "tx->IsCoinBase()"
  if st.isSynced then do
    let nCBaseOutAmt ← tx.getValueOut
    if 0 < nBudgetAmt then
      rejectIf (decide (nCBaseOutAmt ≠ nBudgetAmt)) "bad-superblock-cb-amt"
    else
      rejectIf (!amountAccepted st nCBaseOutAmt nMnAmt)
        (if st.spork8 then "bad-cb-amt" else "bad-cb-amt-spork8-disabled")
  else .ok ()

end

section
variable {params : NetworkParams} {st : PaymentsState} {h : Int} {vout : List TxOut}
  {g : PaymentGlobals}

theorem exec_isMasternodePaid : (isMasternodePaid params st h vout).exec g =
    (.ok (masternodePaid params st h vout),
      { g with nHeight_val := checkedHeight st h g.nHeight_val }) := by
  unfold isMasternodePaid masternodePaid checkedHeight
  cases hobsolete : st.legacyMNObsolete h with
  | true =>
    simp only [if_true, Bool.true_eq_false, false_and, if_false]
    cases getMasternodeTxOuts params st h <;> rfl
  | false =>
    simp only [Bool.false_eq_true, if_false, true_and]
    cases hget : st.mapMasternodeBlocks.blocks[h]? with
    | none => rfl
    | some payees =>
      simp only [Option.isSome_some, if_true, exec_bind, exec_modify, exec_pure,
        st.mapMasternodeBlocks.height hget]

theorem exec_isMasternodePaidOrNotEnforced :
    (isMasternodePaidOrNotEnforced params st h vout).exec g =
      (.ok (masternodePaid params st h vout || !st.spork8),
        { g with nHeight_val := checkedHeight st h g.nHeight_val }) := by
  rw [isMasternodePaidOrNotEnforced, exec_bind, exec_isMasternodePaid]
  rfl

variable (vout) in
/-- In a superblock the budget payment is either found or invalid. -/
theorem budgetCheck_status (hsuper : isSuperblock st h = true) (nBlockHash : Uint256)
    (history : PaymentHistory) : (budgetCheck st nBlockHash h vout history).1 = .valid ∨
      (budgetCheck st nBlockHash h vout history).1 = .inValid := by
  have hblock : st.budgetman.isBudgetPaymentBlock h = true := (Bool.and_eq_true_iff.mp hsuper).2
  obtain ⟨b, p, hb, -, -, hp, -, -⟩ := payment_of_isBudgetPaymentBlock hblock
  rw [budgetCheck, isTransactionValid_payment hblock hb hp]
  dsimp only
  split_ifs
  · exact .inl rfl
  · exact .inr rfl

/-- What `IsBlockPayeeValid` leaves in the variables of the process. -/
def PaymentGlobals.afterPayee (st : PaymentsState) (nBlockHash : Uint256) (h : Int)
    (vout : List TxOut) (g : PaymentGlobals) : PaymentGlobals where
  nHeight_val :=
    if budgetPaid st nBlockHash h vout g.history = true ∨
        (isSuperblock st h && st.spork9) = true then g.nHeight_val
    else checkedHeight st h g.nHeight_val
  history :=
    if isSuperblock st h then (budgetCheck st nBlockHash h vout g.history).2 else g.history

/-- **`IsBlockPayeeValid`**: its verdict and what it leaves. -/
theorem exec_isBlockPayeeValid (hsynced : st.isSynced = true) {nBlockHash}
    {vtx} (hvout : paidOutputs params h vtx = .ok vout) :
    (isBlockPayeeValid params st nBlockHash vtx h).exec g =
      (.ok (payeeVerdict params st nBlockHash h vout g.history),
        g.afterPayee st nBlockHash h vout) := by
  unfold isBlockPayeeValid
  simp only [hsynced, hvout, Bool.not_true, Bool.false_eq_true, if_false, exec_bind, exec_ofExcept]
  cases hsuper : isSuperblock st h with
  | false =>
    have hcond : (st.spork13 && st.budgetman.isBudgetPaymentBlock h) = false := hsuper
    simp only [hcond, Bool.false_eq_true, if_false, exec_isMasternodePaidOrNotEnforced,
      payeeVerdict, budgetPaid, payeeFallback,
      afterPayee, hsuper, Bool.false_and, Bool.false_or, Bool.not_false,
      Bool.true_and, or_self]
  | true =>
    have hcond : (st.spork13 && st.budgetman.isBudgetPaymentBlock h) = true := hsuper
    have hpaid : (isBudgetPaid st nBlockHash h vout).exec g =
        (.ok (budgetCheck st nBlockHash h vout g.history).1,
          { g with history := (budgetCheck st nBlockHash h vout g.history).2 }) := rfl
    simp only [hcond, if_true, exec_bind, hpaid]
    rcases budgetCheck_status vout hsuper nBlockHash g.history with hstatus | hstatus
    · simp [hstatus, payeeVerdict, budgetPaid, afterPayee, hsuper]
    · have hnot : budgetPaid st nBlockHash h vout g.history = false := by
        rw [budgetPaid, hstatus, hsuper]
        rfl
      cases h9 : st.spork9 with
      | true =>
        simp [hstatus, hnot, payeeVerdict, payeeFallback, afterPayee, hsuper, h9]
      | false =>
        simp [hstatus, hnot, payeeVerdict, payeeFallback, afterPayee, hsuper, h9,
          exec_isMasternodePaidOrNotEnforced]

/-- **`IsCoinbaseValueValid`** compares with the payment at the height that was left. -/
theorem exec_isCoinbaseValueValid {tx} {nBudgetAmt : Int} :
    (isCoinbaseValueValid params st tx nBudgetAmt).exec g =
      (coinbaseVerdict st tx nBudgetAmt (params.masternodeReward g.nHeight_val), g) := by
  unfold isCoinbaseValueValid coinbaseVerdict
  simp only [exec_bind, exec_get, exec_ofExcept]
  cases assert tx.isCoinBase "tx->IsCoinBase()" with
  | error f => rfl
  | ok _ =>
    cases st.isSynced with
    | false => rfl
    | true =>
      simp only [if_true, exec_bind, exec_ofExcept]
      cases tx.getValueOut with
      | error f => rfl
      | ok v =>
        by_cases hbudget : 0 < nBudgetAmt
        · simp only [hbudget, if_true, exec_ofExcept]
          rfl
        · simp only [hbudget, if_false, exec_bind, exec_ofExcept, amountAccepted]
          cases st.spork8 with
          | true =>
            by_cases heq : v = params.masternodeReward g.nHeight_val <;>
              simp [heq, rejectIf, bind, Except.bind]
          | false =>
            by_cases hlt : params.masternodeReward g.nHeight_val < v <;>
              simp [hlt, ← not_lt, rejectIf, bind, Except.bind]

end

/-! ### Earlier validations -/

/-- One earlier check, of any block, in any state that the node was in. A block of the active
chain has the height that it has there. -/
inductive Validates (params : NetworkParams) (st : PaymentsState) :
    PaymentGlobals → PaymentGlobals → Prop
  | payee (g : PaymentGlobals) (st' : PaymentsState) (nBlockHash : Uint256)
      (vtx : List Transaction) (h : Int) (hpos : 1 ≤ h)
      (hchain : ∀ k, st.activeHeight nBlockHash = some k → k = h) :
      Validates params st g ((isBlockPayeeValid params st' nBlockHash vtx h).exec g).2
  | coinbase (g : PaymentGlobals) (st' : PaymentsState) (tx : Transaction) (nBudgetAmt : Int) :
      Validates params st g ((isCoinbaseValueValid params st' tx nBudgetAmt).exec g).2

/-- The variables after some sequence of checks, from the start of the process on. -/
def Validated (params : NetworkParams) (st : PaymentsState) (g : PaymentGlobals) : Prop :=
  Relation.ReflTransGen (Validates params st) {} g

/-- What any sequence of checks leaves: heights of blocks. -/
structure GlobalsInv (st : PaymentsState) (g : PaymentGlobals) : Prop where
  height : g.nHeight_val = 0 ∨ 1 ≤ g.nHeight_val
  history : ∀ {p x : Uint256} {k : Int}, g.history[p]? = some (x, k) →
    1 ≤ k ∧ ∀ k', st.activeHeight x = some k' → k' = k

section
variable {params : NetworkParams} {st : PaymentsState} {g : PaymentGlobals}

/-- Also in a state with other budgets, the check adds at most its block. -/
theorem budgetCheck_history {nBlockHash q : Uint256} {h : Int} {vout : List TxOut}
    {history : PaymentHistory} {e : Uint256 × Int} (hsuper : isSuperblock st h = true)
    (he : (budgetCheck st nBlockHash h vout history).2[q]? = some e) :
    history[q]? = some e ∨ e = (nBlockHash, h) := by
  have hblock : st.budgetman.isBudgetPaymentBlock h = true := (Bool.and_eq_true_iff.mp hsuper).2
  obtain ⟨b, p, hb, -, -, hp, -, -⟩ := payment_of_isBudgetPaymentBlock hblock
  unfold budgetCheck at he
  rw [isTransactionValid_payment hblock hb hp] at he
  exact isPaidAlready_history he

/-- One check. -/
theorem GlobalsInv.step {g' : PaymentGlobals} (hinv : GlobalsInv st g)
    (hstep : Validates params st g g') : GlobalsInv st g' := by
  cases hstep with
  | coinbase st' tx nBudgetAmt =>
    rwa [exec_isCoinbaseValueValid]
  | payee st' nBlockHash vtx h hpos hchain =>
    cases hsynced : st'.isSynced with
    | false =>
      have hexec : (isBlockPayeeValid params st' nBlockHash vtx h).exec g = (.ok true, g) := by
        simp [isBlockPayeeValid, hsynced]
      rwa [hexec]
    | true =>
      cases hvout : paidOutputs params h vtx with
      | error f =>
        have hexec : (isBlockPayeeValid params st' nBlockHash vtx h).exec g = (.error f, g) := by
          simp [isBlockPayeeValid, hsynced, hvout, exec_bind]
        rwa [hexec]
      | ok vout =>
        rw [exec_isBlockPayeeValid hsynced hvout]
        refine ⟨?_, ?_⟩
        · dsimp only [afterPayee]
          split_ifs
          · exact hinv.height
          · unfold checkedHeight
            split_ifs
            · exact .inr hpos
            · exact hinv.height
        · intro p x k hget
          dsimp only [afterPayee] at hget
          split_ifs at hget with hsuper
          · rcases budgetCheck_history hsuper hget with hold | hnew
            · exact hinv.history hold
            · cases hnew
              exact ⟨hpos, hchain⟩
          · exact hinv.history hget

/-- Any sequence of checks. -/
theorem Validated.inv (hg : Validated params st g) : GlobalsInv st g := by
  induction hg with
  | refl => exact ⟨.inl rfl, fun hget => by simp at hget⟩
  | tail _ hstep ih => exact ih.step hstep

/-! ### Histories that a verdict can depend on -/

/-- A block of two transactions without outputs. -/
def plainBlock : List Transaction :=
  let tx : Transaction :=
    { hash := 0, nVersion := 1, nType := .normal, vin := [], vout := [], sapData := none,
      extraPayload := none, vout_lt := no_vout_lt }
  [tx, tx]

theorem paidOutputs_plainBlock (h : Int) : paidOutputs params h plainBlock = .ok [] := by
  dsimp only [paidOutputs, plainBlock]
  split_ifs <;> rfl

/-- The votes for one height, without a payee. -/
def votesAt (h : Int) : MasternodeBlocks where
  blocks := (∅ : FMap Int MasternodeBlockPayees).insert h ⟨h, []⟩
  height {k p} hget := by
    rcases FMap.of_get_insert hget with ⟨heq, rfl⟩ | ⟨-, hget⟩
    · exact heq
    · simp at hget

variable (params st) in
/-- Every height can be the last one that was checked. -/
theorem exists_validated_height {k : Int} (hk : 1 ≤ k) :
    ∃ g, Validated params st g ∧ g.nHeight_val = k := by
  obtain ⟨x, hx⟩ := st.exists_off_chain
  let st' : PaymentsState :=
    { st with isSynced := true, spork13 := false, legacyMNObsolete := fun _ => false,
              mapMasternodeBlocks := votesAt k }
  have hchain : ∀ k', st.activeHeight x = some k' → k' = k := by
    intro k' hk'
    rw [hx] at hk'
    cases hk'
  have hexec := @exec_isBlockPayeeValid params st' k [] {} rfl x _ (paidOutputs_plainBlock k)
  refine ⟨_, .single (.payee {} st' x plainBlock k hk hchain), ?_⟩
  rw [hexec]
  simp [afterPayee, budgetPaid, isSuperblock, checkedHeight, st', votesAt]

variable (params st) in
/-- Every block of the active chain can be the one on record for a proposal. -/
theorem exists_validated_history {x} {k : Int} (hk : 1 ≤ k)
    (hx : st.activeHeight x = some k) (p : TxBudgetPayment) :
    ∃ g, Validated params st g ∧ g.history[p.nProposalHash]? = some (x, k) := by
  let budget : FinalizedBudget := ⟨1, k, [p]⟩
  let st' : PaymentsState :=
    { st with isSynced := true, spork13 := true, budgetman := ⟨[budget], 0⟩ }
  have hbudget : st'.budgetman.getBudgetWithHighestVoteCount k = some budget := by
    simp [getBudgetWithHighestVoteCount, st', budget, getBlockEnd]
  have hblock : st'.budgetman.isBudgetPaymentBlock k = true := by
    have hcount : st'.budgetman.getHighestVoteCount k = 1 := by
      rw [getHighestVoteCount, hbudget]
      rfl
    rw [isBudgetPaymentBlock, hcount]
    exact decide_eq_true (show ((0 / 20 : Nat) : Int) < 1 by decide)
  have hpay : budget.vecBudgetPayments[(k - budget.nBlockStart).toNat]? = some p := by
    simp [budget]
  have hsuper : isSuperblock st' k = true := hblock
  have hexec := @exec_isBlockPayeeValid params st' k [] {} rfl x _ (paidOutputs_plainBlock k)
  have hchain : ∀ k', st.activeHeight x = some k' → k' = k := fun k' hk' =>
    Option.mem_unique hk' hx
  refine ⟨_, .single (.payee {} st' x plainBlock k hk hchain), ?_⟩
  rw [hexec]
  simp only [afterPayee, hsuper, if_true, budgetCheck]
  rw [isTransactionValid_payment hblock hbudget hpay,
    isPaidAlready_empty]
  exact FMap.get_insert_self _ _ _

/-- The budget payment of a superblock is accepted, unless another block of the chain is on
record for its proposal. -/
theorem budgetPaid_iff {nBlockHash} {h : Int} {vout} {history} {b} {p}
    (hsuper : isSuperblock st h = true) (hb : st.budgetman.getBudgetWithHighestVoteCount h = some b)
    (hp : b.vecBudgetPayments[(h - b.nBlockStart).toNat]? = some p) :
    budgetPaid st nBlockHash h vout history = true ↔ (⟨p.nAmount, p.payee⟩ : TxOut) ∈ vout ∧
        ¬ ∃ x k, history[p.nProposalHash]? = some (x, k) ∧ b.nBlockStart ≤ k ∧ k ≤ b.getBlockEnd ∧
          x ≠ nBlockHash ∧ (st.activeHeight x).isSome = true := by
  have hblock : st.budgetman.isBudgetPaymentBlock h = true := (Bool.and_eq_true_iff.mp hsuper).2
  unfold budgetPaid budgetCheck
  rw [hsuper, isTransactionValid_payment hblock hb hp, Bool.true_and, beq_iff_eq,
    ← isPaidAlready_iff (fun h => (st.activeHeight h).isSome) h]
  dsimp only
  split_ifs with hboth
  · simp only [true_iff]
    exact ⟨hboth.2, by simp [hboth.1]⟩
  · simp only [false_iff]
    intro hpaid
    exact hboth ⟨Bool.eq_false_iff.mpr hpaid.2, hpaid.1⟩

/-! ### Independence of the history -/

/-- No record can change the verdict on the payee: the node is not synced, the budget payment is
not due or not made, no other block of the active chain lies in the payment cycle, or the block
passes without the budget payment. -/
def PayeeSettled (params : NetworkParams) (st : PaymentsState) (nBlockHash : Uint256)
    (vtx : List Transaction) (h : Int) : Prop :=
  st.isSynced = true → ∀ vout, paidOutputs params h vtx = .ok vout → isSuperblock st h = true →
    ∀ b p, st.budgetman.getBudgetWithHighestVoteCount h = some b →
      b.vecBudgetPayments[(h - b.nBlockStart).toNat]? = some p →
      (⟨p.nAmount, p.payee⟩ : TxOut) ∈ vout →
      (∃ x k, x ≠ nBlockHash ∧ st.activeHeight x = some k ∧ 1 ≤ k ∧ b.nBlockStart ≤ k ∧
        k ≤ b.getBlockEnd) →
      st.spork9 = false ∧ (masternodePaid params st h vout = true ∨ st.spork8 = false)

/-- No height can change the verdict on the coinbase: the node is not synced, it is a superblock,
or the amount passes for the masternode payments of all heights or of none. -/
def CoinbaseSettled (params : NetworkParams) (st : PaymentsState) (tx : Transaction)
    (nBudgetAmt : Int) : Prop :=
  tx.isCoinBase = true → st.isSynced = true → nBudgetAmt ≤ 0 → ∀ v, tx.getValueOut = .ok v →
    ∀ k, 1 ≤ k → amountAccepted st v (params.masternodeReward k) =
      amountAccepted st v (params.masternodeReward 0)

theorem payee_eq_iff {nBlockHash} {vtx} {h : Int} :
    (∀ g g', Validated params st g → Validated params st g' →
      ((isBlockPayeeValid params st nBlockHash vtx h).exec g).1 =
        ((isBlockPayeeValid params st nBlockHash vtx h).exec g').1) ↔
      PayeeSettled params st nBlockHash vtx h := by
  constructor
  · intro hsame hsynced vout hvout hsuper b p hb hp hmem ⟨x, k, hne, hx, hk, hstart, hend⟩
    obtain ⟨g, hg, hrec⟩ := exists_validated_history params st hk hx p
    have heq := hsame {} g .refl hg
    rw [exec_isBlockPayeeValid hsynced hvout, exec_isBlockPayeeValid hsynced hvout] at heq
    -- without a record the payment is accepted, so it has to be accepted with this one
    have hfresh : budgetPaid st nBlockHash h vout (∅ : PaymentHistory) = true :=
      (budgetPaid_iff hsuper hb hp).mpr ⟨hmem, by simp⟩
    have hrefused : budgetPaid st nBlockHash h vout g.history = false := by
      rw [Bool.eq_false_iff]
      intro hpaid
      exact ((budgetPaid_iff hsuper hb hp).mp hpaid).2
        ⟨x, k, hrec, hstart, hend, hne, by rw [hx]; rfl⟩
    have hfallback : payeeFallback params st h vout = true := by
      have hok := Except.ok.inj heq
      simpa only [payeeVerdict, hfresh, hrefused, Bool.true_or, Bool.false_or] using hok.symm
    simpa [payeeFallback, hsuper] using hfallback
  · intro hsettled g g' hg hg'
    cases hsynced : st.isSynced with
    | false => simp [isBlockPayeeValid, hsynced]
    | true =>
      cases hvout : paidOutputs params h vtx with
      | error f => simp [isBlockPayeeValid, hsynced, hvout, exec_bind]
      | ok vout =>
        rw [exec_isBlockPayeeValid hsynced hvout, exec_isBlockPayeeValid hsynced hvout]
        refine congrArg Except.ok ?_
        cases hsuper : isSuperblock st h with
        | false => simp [payeeVerdict, budgetPaid, hsuper]
        | true =>
          have hblock : st.budgetman.isBudgetPaymentBlock h = true :=
            (Bool.and_eq_true_iff.mp hsuper).2
          obtain ⟨b, p, hb, -, -, hp, -, -⟩ :=
            payment_of_isBudgetPaymentBlock hblock
          unfold payeeVerdict
          cases hfallback : payeeFallback params st h vout with
          | true => simp
          | false =>
            rw [Bool.or_false, Bool.or_false, Bool.eq_iff_iff, budgetPaid_iff hsuper hb hp,
              budgetPaid_iff hsuper hb hp]
            refine and_congr_right fun hmem => ?_
            -- a record would be of another block in the cycle, and then the fallback accepts
            have hnone : ∀ g, Validated params st g → ¬ ∃ x k,
                g.history[p.nProposalHash]? = some (x, k) ∧ b.nBlockStart ≤ k ∧
                  k ≤ b.getBlockEnd ∧ x ≠ nBlockHash ∧ (st.activeHeight x).isSome = true := by
              intro g hg ⟨x, k, hget, hstart, hend, hne, hchain⟩
              obtain ⟨hk, hheight⟩ := hg.inv.history hget
              obtain ⟨k', hk'⟩ := Option.isSome_iff_exists.mp hchain
              obtain rfl := hheight k' hk'
              have hpass := hsettled hsynced vout hvout hsuper b p hb hp hmem
                ⟨x, k', hne, hk', hk, hstart, hend⟩
              simp [payeeFallback, hpass] at hfallback
              simp [hfallback] at hpass
            exact iff_of_true (hnone g hg) (hnone g' hg')

theorem coinbase_eq_iff {tx} {nBudgetAmt : Int} :
    (∀ g g', Validated params st g → Validated params st g' →
      ((isCoinbaseValueValid params st tx nBudgetAmt).exec g).1 =
        ((isCoinbaseValueValid params st tx nBudgetAmt).exec g').1) ↔
      CoinbaseSettled params st tx nBudgetAmt := by
  -- the verdict is decided by whether the amount passes
  have hverdict : tx.isCoinBase = true → st.isSynced = true → nBudgetAmt ≤ 0 → ∀ v,
      tx.getValueOut = .ok v → ∀ r, coinbaseVerdict st tx nBudgetAmt r =
        rejectIf (!amountAccepted st v r)
          (if st.spork8 then "bad-cb-amt" else "bad-cb-amt-spork8-disabled") := by
    intro hcb hsynced hbudget v hv r
    have hnot : ¬ 0 < nBudgetAmt := by omega
    simp [coinbaseVerdict, hcb, hsynced, hv, hnot, assert, bind, Except.bind]
  constructor
  · intro hsame hcb hsynced hbudget v hv k hk
    obtain ⟨g, hg, hheight⟩ := exists_validated_height params st hk
    have heq := hsame g {} hg .refl
    rw [exec_isCoinbaseValueValid, exec_isCoinbaseValueValid,
      hverdict hcb hsynced hbudget v hv, hverdict hcb hsynced hbudget v hv, hheight] at heq
    revert heq
    cases amountAccepted st v (params.masternodeReward k) <;>
      cases amountAccepted st v (params.masternodeReward 0) <;> simp [rejectIf]
  · intro hsettled g g' hg hg'
    rw [exec_isCoinbaseValueValid, exec_isCoinbaseValueValid]
    by_cases hcb : tx.isCoinBase = true
    · by_cases hsynced : st.isSynced = true
      · by_cases hbudget : nBudgetAmt ≤ 0
        · cases hv : tx.getValueOut with
          | error f =>
            simp [coinbaseVerdict, hcb, hsynced, hv, assert, bind, Except.bind]
          | ok v =>
            have hzero : ∀ g, Validated params st g →
                amountAccepted st v (params.masternodeReward g.nHeight_val) =
                  amountAccepted st v (params.masternodeReward 0) := by
              intro g hg
              rcases hg.inv.height with h0 | hk
              · rw [h0]
              · exact hsettled hcb hsynced hbudget v hv _ hk
            rw [hverdict hcb hsynced hbudget v hv, hverdict hcb hsynced hbudget v hv, hzero g hg,
              hzero g' hg']
        · have hpos : 0 < nBudgetAmt := by omega
          simp [coinbaseVerdict, hpos]
      · simp [coinbaseVerdict, hsynced]
    · simp [coinbaseVerdict, hcb, assert, bind, Except.bind]

/-- **When the history does not matter.** The verdicts of `IsBlockPayeeValid` and
`IsCoinbaseValueValid` are the same after every sequence of earlier checks exactly if they are
settled by the block and the state of the node. -/
theorem verdicts_eq_iff {nBlockHash : Uint256} {vtx : List Transaction} {h : Int}
    {tx : Transaction} {nBudgetAmt : Int} :
    (∀ g g', Validated params st g → Validated params st g' →
      ((isBlockPayeeValid params st nBlockHash vtx h).exec g).1 =
          ((isBlockPayeeValid params st nBlockHash vtx h).exec g').1 ∧
        ((isCoinbaseValueValid params st tx nBudgetAmt).exec g).1 =
          ((isCoinbaseValueValid params st tx nBudgetAmt).exec g').1) ↔
      PayeeSettled params st nBlockHash vtx h ∧ CoinbaseSettled params st tx nBudgetAmt := by
  rw [← payee_eq_iff, ← coinbase_eq_iff]
  constructor
  · intro hsame
    exact ⟨fun g g' hg hg' => (hsame g g' hg hg').1, fun g g' hg hg' => (hsame g g' hg hg').2⟩
  · intro hboth g g' hg hg'
    exact ⟨hboth.1 g g' hg hg', hboth.2 g g' hg hg'⟩

end

namespace Sample

/-- The regression test network, with the last upgrade scheduled. -/
def regtestParams : NetworkParams where
  isRegTestNet := true
  isTestnet := false
  hashGenesisBlock := 90
  nBudgetCycleBlocks := 144
  nBudgetCycleBlocks_pos := by decide
  upgradePoS := 251
  upgradeV5_3 := 251
  upgradeV6_0 := 300
  getMasternodePayment h v :=
    if 251 ≤ h then if 84000 < h then v * 20 / 100 else v * 56 / 100 else 0
  getMasternodePayment_le h v hv := by
    split_ifs <;> omega

/-- A synced node after the switch to deterministic masternodes, all payments enforced. -/
def paymentsState : PaymentsState where
  isSynced := true
  spork8 := true
  spork9 := true
  spork13 := true
  budgetman := ⟨[], 0⟩
  mapMasternodeBlocks := .empty
  getHashAtHeight _ := 0
  getCurrentMasterNode _ := none
  legacyMNObsolete _ := true
  mnList := {}
  nOperatorReward_le := by decide +kernel
  activeHeight x := if x = 70 then some 432 else none
  exists_off_chain := ⟨0, by decide⟩

/-- A coinbase with one output. -/
def payingCoinbase (nValue : Int) (scriptPubKey : Script) : Transaction where
  hash := 71
  nVersion := 1
  nType := .normal
  vin := [⟨OutPoint.null, []⟩]
  vout := [⟨nValue, scriptPubKey⟩]
  sapData := none
  extraPayload := none
  vout_lt := by
    rw [List.length_singleton]
    decide

def proposalPayment : TxBudgetPayment := ⟨40, [1], 10 * COIN, by decide⟩

/-- A budget that pays one proposal in two blocks. -/
def twicePaying : FinalizedBudget := ⟨3, 432, [proposalPayment, proposalPayment]⟩

def superblockState : PaymentsState := { paymentsState with budgetman := ⟨[twicePaying], 0⟩ }

end Sample

open Sample

/-- **The verdicts depend on the history.** The coinbase pays what the masternodes get at its
height: a fresh node rejects it, one that checked a legacy payee at height 350 accepts it. The
budget payment at height 433 is accepted by a fresh node and rejected by one that has seen the
proposal paid in the block before. -/
theorem verdicts_depend_on_history : (∃ g g', Validated regtestParams paymentsState g ∧
      Validated regtestParams paymentsState g' ∧ ((isCoinbaseValueValid regtestParams paymentsState
        (payingCoinbase (140 * COIN) [1]) 0).exec g).1 = .error (.reject "bad-cb-amt") ∧
      ((isCoinbaseValueValid regtestParams paymentsState
        (payingCoinbase (140 * COIN) [1]) 0).exec g').1 = .ok ()) ∧
    ∃ g g', Validated regtestParams superblockState g ∧ Validated regtestParams superblockState g' ∧
      ((isBlockPayeeValid regtestParams superblockState 72
        [payingCoinbase (10 * COIN) [1]] 433).exec g).1 = .ok true ∧
      ((isBlockPayeeValid regtestParams superblockState 72
        [payingCoinbase (10 * COIN) [1]] 433).exec g').1 = .ok false := by
  constructor
  · obtain ⟨g', hg', hheight⟩ := exists_validated_height regtestParams
      paymentsState (k := 350) (by decide)
    refine ⟨{}, g', .refl, hg', ?_, ?_⟩
    · rw [exec_isCoinbaseValueValid]
      decide
    · rw [exec_isCoinbaseValueValid, hheight]
      show coinbaseVerdict _ _ _ _ = .ok ()
      decide
  · -- the block before is checked first
    have hpaid := @Validates.payee regtestParams superblockState {} superblockState 70
      [payingCoinbase (10 * COIN) [1]] 432 (by decide) fun _ hk => Option.mem_unique hk rfl
    exact ⟨{}, _, .refl, .single hpaid, by decide +kernel, by decide +kernel⟩

end KmushiCoin
