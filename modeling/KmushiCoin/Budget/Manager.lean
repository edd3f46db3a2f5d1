import KmushiCoin.Primitives.Transaction

/-!
# KmushiCoin.Budget.Manager

**Finalized budgets** and what they say about the block at a height: which one has the most
votes there, whether it pays in this block, and whether a transaction makes the payment.

* Heights are plain integers: a budget starts and ends far below the largest machine integer.
* `IsPaidAlready` remembers the first block in which it was asked about a proposal. This
  **payment history** is a variable of the process, not of a budget, and every call cleans it up
  and may add to it; so the calls take the history and return the new one.
* At a height with a budget payment there is exactly one payment to make
  (`payment_of_isBudgetPaymentBlock`); the vote threshold never excludes it.
-/

namespace KmushiCoin

open Option

/-! ### One finalized budget -/

structure TxBudgetPayment where
  nProposalHash : Uint256
  payee : Script
  nAmount : Int
  /-- The amount fits its machine word. -/
  nAmount_lt : nAmount < 2 ^ 63 := by decide
  deriving Repr, DecidableEq

structure FinalizedBudget where
  /-- The number of masternodes that voted. -/
  voteCount : Nat
  nBlockStart : Int
  /-- The payments, one in each block from the start on. -/
  vecBudgetPayments : List TxBudgetPayment
  deriving Repr, DecidableEq

inductive TrxValidationStatus
  | inValid
  | valid
  | doublePayment
  | voteThreshold
  deriving Repr, DecidableEq

/-- The block in which a proposal was first seen paid: its hash and its height. -/
abbrev PaymentHistory : Type := FMap Uint256 (Uint256 × Int)

namespace FinalizedBudget

variable (b : FinalizedBudget)

def getBlockEnd : Int := b.nBlockStart + (b.vecBudgetPayments.length - 1)

def getPayeeAndAmount (nBlockHeight : Int) : Option (Script × Int) :=
  let i := nBlockHeight - b.nBlockStart
  if i < 0 then none
  else if i > b.vecBudgetPayments.length - 1 then none
  else b.vecBudgetPayments[i.toNat]?.map fun p => (p.payee, p.nAmount)

/-- The history without the blocks of other payment cycles. -/
def cleanHistory (history : PaymentHistory) : PaymentHistory :=
  Std.ExtTreeMap.filter
    (fun _ paid => !(decide (paid.2 < b.nBlockStart) || decide (b.getBlockEnd < paid.2))) history

/-- Whether another block of the active chain pays the proposal. -/
def isPaidAlready (onChain : Uint256 → Bool) (nProposalHash nBlockHash : Uint256)
    (nBlockHeight : Int) (history : PaymentHistory) : Bool × PaymentHistory :=
  let history := b.cleanHistory history
  match history[nProposalHash]? with
  | none => (false, history.insert nProposalHash (nBlockHash, nBlockHeight))
  | some (nPaidBlockHash, _) =>
    if nBlockHash ≠ nPaidBlockHash then (onChain nPaidBlockHash, history)
    -- the same block is checked again
    else (false, history)

def isTransactionValid (onChain : Uint256 → Bool) (vout : List TxOut) (nBlockHash : Uint256)
    (nBlockHeight : Int) (history : PaymentHistory) : TrxValidationStatus × PaymentHistory :=
  if b.getBlockEnd < nBlockHeight then (.inValid, history)
  else if nBlockHeight < b.nBlockStart then (.inValid, history)
  else
    match b.vecBudgetPayments[(nBlockHeight - b.nBlockStart).toNat]? with
    | none => (.inValid, history)
    | some payment =>
      match b.isPaidAlready onChain payment.nProposalHash nBlockHash nBlockHeight history with
      | (true, history) => (.doublePayment, history)
      | (false, history) =>
        if (⟨payment.nAmount, payment.payee⟩ : TxOut) ∈ vout then (.valid, history)
        else (.inValid, history)

/-! ### The payment history -/

variable {b} {onChain : Uint256 → Bool} {p hash : Uint256} {h : Int} {history : PaymentHistory}

variable {q : Uint256} {e : Uint256 × Int}

theorem cleanHistory_get : (b.cleanHistory history)[q]? = some e ↔
      history[q]? = some e ∧ b.nBlockStart ≤ e.2 ∧ e.2 ≤ b.getBlockEnd := by
  rw [cleanHistory, Std.ExtTreeMap.getElem?_filter]
  cases history[q]? with
  | none => simp
  | some e' =>
    simp only [pfilter_some, some.injEq, Bool.not_eq_true', Bool.or_eq_false_iff,
      decide_eq_false_iff_not, not_lt]
    constructor
    · intro hsome
      split_ifs at hsome with hrange
      cases hsome
      exact ⟨rfl, hrange⟩
    · rintro ⟨rfl, hrange⟩
      rw [if_pos hrange]

variable (onChain h) in
/-- A proposal counts as paid when the block on record is another one of the active chain, from
the same payment cycle. -/
theorem isPaidAlready_iff : (b.isPaidAlready onChain p hash h history).1 = true ↔
    ∃ x k, history[p]? = some (x, k) ∧ b.nBlockStart ≤ k ∧ k ≤ b.getBlockEnd ∧ x ≠ hash ∧
      onChain x = true := by
  unfold isPaidAlready
  cases hget : (b.cleanHistory history)[p]? with
  | none =>
    simp only [hget, Bool.false_eq_true, false_iff]
    rintro ⟨x, k, hk, hstart, hend, -⟩
    simp [cleanHistory_get.mpr ⟨hk, hstart, hend⟩] at hget
  | some e =>
    obtain ⟨hrec, hstart, hend⟩ := cleanHistory_get.mp hget
    constructor
    · intro hpaid
      simp only [hget] at hpaid
      split_ifs at hpaid with hne
      exact ⟨e.1, e.2, hrec, hstart, hend, Ne.symm hne, hpaid⟩
    · rintro ⟨x, k, hk, -, -, hne, hchain⟩
      obtain rfl := mem_unique hrec hk
      simp only [hget, ne_eq, Ne.symm hne, not_false_eq_true, if_true, hchain]

/-- The check adds at most the block that it is about. -/
theorem isPaidAlready_history (he : (b.isPaidAlready onChain p hash h history).2[q]? = some e) :
    history[q]? = some e ∨ e = (hash, h) := by
  unfold isPaidAlready at he
  cases hget : (b.cleanHistory history)[p]? with
  | none =>
    simp only [hget, FMap.get_insert] at he
    split_ifs at he with heq
    · exact .inr (some.inj he).symm
    · exact .inl (cleanHistory_get.mp he).1
  | some e' =>
    simp only [hget] at he
    split_ifs at he
    · exact .inl (cleanHistory_get.mp he).1
    · exact .inl (cleanHistory_get.mp he).1

/-- A record of the payment cycle stays. -/
theorem isPaidAlready_keeps (he : history[q]? = some e) (hstart : b.nBlockStart ≤ e.2)
    (hend : e.2 ≤ b.getBlockEnd) : (b.isPaidAlready onChain p hash h history).2[q]? = some e := by
  have hclean : (b.cleanHistory history)[q]? = some e := cleanHistory_get.mpr ⟨he, hstart, hend⟩
  unfold isPaidAlready
  cases hget : (b.cleanHistory history)[p]? with
  | none =>
    have hne : p ≠ q := by
      intro heq
      simp [heq, hclean] at hget
    simp only [hget]
    rw [FMap.get_insert_ne hne, hclean]
  | some e' =>
    simp only [hget]
    split_ifs <;> exact hclean

/-- After the check the proposal is on record: with an earlier block of the payment cycle, or else
with this one. -/
theorem isPaidAlready_recorded : (b.isPaidAlready onChain p hash h history).2[p]? = some (hash, h) ∨
      ∃ e, history[p]? = some e ∧ b.nBlockStart ≤ e.2 ∧ e.2 ≤ b.getBlockEnd ∧
        (b.isPaidAlready onChain p hash h history).2[p]? = some e := by
  cases hget : (b.cleanHistory history)[p]? with
  | none =>
    refine .inl ?_
    simp only [isPaidAlready, hget]
    exact FMap.get_insert_self _ _ _
  | some e =>
    obtain ⟨he, hstart, hend⟩ := cleanHistory_get.mp hget
    exact .inr ⟨e, he, hstart, hend, isPaidAlready_keeps he hstart hend⟩

/-- The first block is put on record. -/
theorem isPaidAlready_empty :
    b.isPaidAlready onChain p hash h ∅ = (false, (∅ : PaymentHistory).insert p (hash, h)) := by
  have hclean : b.cleanHistory ∅ = ∅ := by
    apply FMap.ext
    intro q
    rw [cleanHistory, Std.ExtTreeMap.getElem?_filter]
    simp
  simp [isPaidAlready, hclean]

end FinalizedBudget

/-! ### The budget manager -/

structure BudgetManager where
  /-- The finalized budgets in the order of their hashes. -/
  mapFinalizedBudgets : List FinalizedBudget
  /-- `mnodeman.CountEnabled(ActiveProtocol())`. -/
  nCountEnabled : Nat

namespace BudgetManager

variable (m : BudgetManager)

def getBudgetWithHighestVoteCount (chainHeight : Int) : Option FinalizedBudget :=
  (m.mapFinalizedBudgets.foldl
    (fun (highest : Option FinalizedBudget × Nat) b =>
      if highest.2 < b.voteCount ∧ b.nBlockStart ≤ chainHeight ∧ chainHeight ≤ b.getBlockEnd then
        (some b, b.voteCount)
      else highest)
    (none, 0)).1

def getHighestVoteCount (chainHeight : Int) : Int :=
  match m.getBudgetWithHighestVoteCount chainHeight with
  | some b => b.voteCount
  | none => -1

/-- The highest vote count less a tenth of the masternodes. -/
def nCountThreshold (nBlockHeight : Int) : Int :=
  let nHighestCount := m.getHighestVoteCount nBlockHeight
  let threshold := nHighestCount - (m.nCountEnabled / 10 : Nat)
  if threshold = nHighestCount then threshold - 1 else threshold

/-- A twentieth of the masternodes has to vote. -/
def isBudgetPaymentBlock (nBlockHeight : Int) : Bool :=
  decide ((m.nCountEnabled / 20 : Nat) < m.getHighestVoteCount nBlockHeight)

def getPayeeAndAmount (chainHeight : Int) : Option (Script × Int) :=
  if !m.isBudgetPaymentBlock chainHeight then none
  else
    match m.getBudgetWithHighestVoteCount chainHeight with
    | none => none
    | some pfb =>
      match pfb.getPayeeAndAmount chainHeight with
      | none => none
      | some payment =>
        if m.nCountThreshold chainHeight < pfb.voteCount then some payment else none

def isTransactionValid (onChain : Uint256 → Bool) (vout : List TxOut) (nBlockHash : Uint256)
    (nBlockHeight : Int) (history : PaymentHistory) : TrxValidationStatus × PaymentHistory :=
  if !m.isBudgetPaymentBlock nBlockHeight then (.inValid, history)
  else
    match m.getBudgetWithHighestVoteCount nBlockHeight with
    | none => (.voteThreshold, history)
    | some highestVotesBudget =>
      if m.nCountThreshold nBlockHeight < highestVotesBudget.voteCount then
        match highestVotesBudget.isTransactionValid onChain vout nBlockHash nBlockHeight history with
        | (.valid, history) => (.valid, history)
        | (_, history) => (.inValid, history)
      else (.voteThreshold, history)

/-! ### The payment of a height -/

variable {m}

variable {h : Int} {b : FinalizedBudget}

/-- The chosen budget is one of the budgets whose blocks include the height. -/
theorem getBudgetWithHighestVoteCount_spec (hb : m.getBudgetWithHighestVoteCount h = some b) :
    b ∈ m.mapFinalizedBudgets ∧ b.nBlockStart ≤ h ∧ h ≤ b.getBlockEnd := by
  -- so is the best budget so far, if there is one
  refine List.foldlRecOn (motive := fun best : Option FinalizedBudget × Nat => ∀ b,
    best.1 = some b → b ∈ m.mapFinalizedBudgets ∧ b.nBlockStart ≤ h ∧ h ≤ b.getBlockEnd)
    _ _ (by simp) ?_ b hb
  intro best hbest c hc b hb
  split_ifs at hb with hrange
  · cases hb
    exact ⟨hc, hrange.2⟩
  · exact hbest b hb

/-- The payment that a budget makes at a height of its range. -/
theorem exists_payment (hrange : b.nBlockStart ≤ h ∧ h ≤ b.getBlockEnd) :
    ∃ p, b.vecBudgetPayments[(h - b.nBlockStart).toNat]? = some p ∧
      b.getPayeeAndAmount h = some (p.payee, p.nAmount) := by
  obtain ⟨hstart, hend⟩ := hrange
  unfold FinalizedBudget.getBlockEnd at hend
  have hlt : (h - b.nBlockStart).toNat < b.vecBudgetPayments.length := by omega
  refine ⟨b.vecBudgetPayments[(h - b.nBlockStart).toNat], List.getElem?_eq_getElem hlt, ?_⟩
  unfold FinalizedBudget.getPayeeAndAmount
  simp only [List.getElem?_eq_getElem hlt, map_some]
  rw [if_neg (by omega), if_neg (by omega)]

/-- **The payment of a budget block.** The budget with the most votes passes the threshold and
has a payment for the height. -/
theorem payment_of_isBudgetPaymentBlock (hblock : m.isBudgetPaymentBlock h = true) :
    ∃ b p, m.getBudgetWithHighestVoteCount h = some b ∧ b.nBlockStart ≤ h ∧ h ≤ b.getBlockEnd ∧
      b.vecBudgetPayments[(h - b.nBlockStart).toNat]? = some p ∧
      m.nCountThreshold h < b.voteCount ∧ m.getPayeeAndAmount h = some (p.payee, p.nAmount) := by
  have hvotes : (m.nCountEnabled / 20 : Nat) < m.getHighestVoteCount h := of_decide_eq_true hblock
  unfold getHighestVoteCount at hvotes
  cases hb : m.getBudgetWithHighestVoteCount h with
  | none =>
    simp only [hb] at hvotes
    omega
  | some b =>
    have hrange := (getBudgetWithHighestVoteCount_spec hb).2
    obtain ⟨p, hp, hpay⟩ := exists_payment hrange
    have hthreshold : m.nCountThreshold h < b.voteCount := by
      simp only [nCountThreshold, getHighestVoteCount, hb]
      split_ifs with heq <;> omega
    refine ⟨b, p, rfl, hrange.1, hrange.2, hp, hthreshold, ?_⟩
    simp [getPayeeAndAmount, hblock, hb, hpay, hthreshold]

/-- The verdict on the outputs of a budget block: they have the payment, and no other block of
the chain was seen to pay the proposal. -/
theorem isTransactionValid_payment {p} (hblock : m.isBudgetPaymentBlock h = true)
    (hb : m.getBudgetWithHighestVoteCount h = some b)
    (hp : b.vecBudgetPayments[(h - b.nBlockStart).toNat]? = some p) (onChain : Uint256 → Bool)
    (vout : List TxOut) (nBlockHash : Uint256) (history : PaymentHistory) :
    m.isTransactionValid onChain vout nBlockHash h history =
      (if (b.isPaidAlready onChain p.nProposalHash nBlockHash h history).1 = false ∧
          (⟨p.nAmount, p.payee⟩ : TxOut) ∈ vout then .valid else .inValid,
        (b.isPaidAlready onChain p.nProposalHash nBlockHash h history).2) := by
  obtain ⟨b', p', hb', hstart, hend, -, hthreshold, -⟩ := payment_of_isBudgetPaymentBlock hblock
  obtain rfl := mem_unique hb hb'
  have hbudget : b.isTransactionValid onChain vout nBlockHash h history =
      match b.isPaidAlready onChain p.nProposalHash nBlockHash h history with
      | (true, history) => (.doublePayment, history)
      | (false, history) =>
        if (⟨p.nAmount, p.payee⟩ : TxOut) ∈ vout then (.valid, history)
        else (.inValid, history) := by
    unfold FinalizedBudget.isTransactionValid
    rw [if_neg (by omega), if_neg (by omega), hp]
  simp only [isTransactionValid, hblock, hb, hthreshold, hbudget, Bool.not_true,
    Bool.false_eq_true, if_false, if_true]
  rcases b.isPaidAlready onChain p.nProposalHash nBlockHash h history with ⟨_ | _, history'⟩
  · by_cases hmem : (⟨p.nAmount, p.payee⟩ : TxOut) ∈ vout <;> simp [hmem]
  · simp

end BudgetManager

end KmushiCoin
