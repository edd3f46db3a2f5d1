import KmushiCoin.Budget.FeeIndex
import KmushiCoin.Lib.Canonical

/-!
# KmushiCoin.Budget.Winning

**Which proposals are paid**, how often, and by which finalized budget.

* `GetTotalPaymentCount` counts the cycles from the first to the last block of a proposal. The
  range that `IsPassing` asks for ends one block earlier, so a proposal can be paid once more.
* `getBudget` takes the proposals in the order of their net votes, each one that passes and fits
  what is left of the total (`Selects`). The order is strict when the fee transactions differ, so
  it is of no account in which order the proposals came.
* `checkProposals` finds each payment among the winning proposals. A budget that pays one of them
  twice in the place of another one is accepted.
* The votes on a finalized budget are all counted: nothing reads the flag that
  `RemoveStaleVotesOnFinalBudget` sets.
-/

namespace KmushiCoin

open BudgetProposal List

/-! ### The payments of a proposal -/

section
variable {n s e : Int}

/-- A quotient grows when the next number is a multiple. -/
theorem add_one_ediv (hn : 0 < n) (x : Int) : (x + 1) / n = x / n + if n ∣ x + 1 then 1 else 0 := by
  have hdiv := Int.mul_ediv_add_emod x n
  have hlt := Int.emod_lt_of_pos x hn
  have hnonneg := Int.emod_nonneg x hn.ne'
  have hsplit : (x + 1) / n = (x % n + 1) / n + x / n := by
    rw [← Int.add_mul_ediv_left _ _ hn.ne']
    congr 1
    omega
  have hdvd : n ∣ x + 1 ↔ x % n + 1 = n := by
    rw [Int.dvd_iff_emod_eq_zero, ← Int.emod_add_emod]
    refine ⟨fun hzero => ?_, fun heq => by rw [heq, Int.emod_self]⟩
    by_contra hne
    rw [Int.emod_eq_of_lt (by omega) (by omega)] at hzero
    omega
  simp only [hsplit, hdvd]
  split_ifs with heq
  · rw [heq, Int.ediv_self hn.ne']
    omega
  · rw [Int.ediv_eq_zero_of_lt (by omega) (by omega)]
    omega

/-- The number of multiples `k * n`, from the second one on, with `s ≤ k * n` and
`(k + 1) * n ≤ e + 1`. -/
def cycleCount (n s e : Int) : Int := max 0 ((e + 1) / n - max 1 ((s + n - 1) / n))

/-- It is more than the difference of the quotients if both ends are as close as they can be. -/
theorem cycleCount_le_iff (hn : 0 < n) (hs : 0 ≤ s) (hse : s ≤ e) :
    cycleCount n s e ≤ e / n - s / n ↔ ¬ (0 < s ∧ n ∣ s ∧ n ∣ e + 1) := by
  -- the first multiple of the range follows the last one before it
  have hfirst : (s + n - 1) / n = (s - 1) / n + 1 := by
    rw [← Int.add_mul_ediv_left _ _ hn.ne']
    congr 1
    omega
  have hbefore := add_one_ediv hn (s - 1)
  rw [Int.sub_add_cancel] at hbefore
  have hzero : s = 0 → s / n = 0 := by
    intro h0
    rw [h0, Int.zero_ediv]
  have hnonneg : 0 < s → 0 ≤ (s - 1) / n := fun h0 => Int.ediv_nonneg (by omega) hn.le
  have hmono := Int.ediv_le_ediv hn hse
  rw [cycleCount, hfirst, add_one_ediv hn e, max_le_iff]
  by_cases hdvd : n ∣ s
  all_goals by_cases hdvd' : n ∣ e + 1
  all_goals
    simp only [hdvd, hdvd', if_true, if_false, and_true, and_false, not_false_eq_true, iff_true]
      at hbefore ⊢
    omega

end

namespace BudgetProposal

variable {env : BudgetEnv} {p : BudgetProposal}

/-- The cycles whose blocks are in the range of a proposal, as `isPassing` compares them. A cycle
goes by the number of its superblock; the first block of the chain is not one. -/
def payableCycles (env : BudgetEnv) (p : BudgetProposal) : Set Nat :=
  let n := env.params.nBudgetCycleBlocks
  {k | 0 < k ∧ p.nBlockStart ≤ k * n ∧ k * n + n - 1 ≤ p.nBlockEnd}

/-- They are consecutive. -/
theorem payableCycles_card : (p.payableCycles env).Finite ∧ ((p.payableCycles env).ncard : Int) =
      cycleCount env.params.nBudgetCycleBlocks p.nBlockStart p.nBlockEnd := by
  have hpos := env.params.nBudgetCycleBlocks_pos
  unfold payableCycles
  generalize env.params.nBudgetCycleBlocks = n at *
  have heq : {k : Nat | 0 < k ∧ p.nBlockStart ≤ k * n ∧ k * n + n - 1 ≤ p.nBlockEnd} =
      Set.Ico (max 1 ((p.nBlockStart + n - 1) / n)).toNat ((p.nBlockEnd + 1) / n).toNat := by
    ext k
    have hfirst := Int.ediv_lt_iff_lt_mul (a := p.nBlockStart + n - 1) (b := (k : Int) + 1) hpos
    have hlast := Int.le_ediv_iff_mul_le (a := (k : Int) + 1) (b := p.nBlockEnd + 1) hpos
    rw [Int.add_mul, Int.one_mul] at hfirst hlast
    simp only [Set.mem_ofPred_eq, Set.mem_Ico]
    omega
  rw [heq, Set.ncard_eq_toFinset_card', Set.toFinset_Ico, Nat.card_Ico, cycleCount]
  exact ⟨Set.finite_Ico _ _, by omega⟩

theorem checkStartEnd_of_isWellFormed {nTotalBudget : Int}
    (h : p.isWellFormed env nTotalBudget = .ok ()) :
    0 ≤ p.nBlockStart ∧ p.nBlockStart ≤ p.nBlockEnd ∧
      (networkUpgradeActive p.nBlockStart env.params.upgradeV5_0 = true →
        p.getTotalPaymentCount env ≤ env.nMaxProposalPayments) := by
  replace h : p.checkStartEnd env = .ok () := by
    cases hs : p.checkStartEnd env with
    | error e => simp [isWellFormed, hs, bind, Except.bind] at h
    | ok => rfl
  simp only [checkStartEnd] at h
  split_ifs at h with hstart hend hcount
  exact ⟨by omega, by omega, fun hnew => not_lt.mp fun hlt => hcount ⟨hnew, hlt⟩⟩

theorem getTotalPaymentCount_eq (hstart : 0 ≤ p.nBlockStart) (hend : p.nBlockStart ≤ p.nBlockEnd) :
    p.getTotalPaymentCount env = p.nBlockEnd / env.params.nBudgetCycleBlocks -
      p.nBlockStart / env.params.nBudgetCycleBlocks := by
  have hpos := env.params.nBudgetCycleBlocks_pos
  rw [getTotalPaymentCount, getBlockCycle]
  generalize env.params.nBudgetCycleBlocks = n at *
  have hdiv := Int.mul_ediv_add_emod p.nBlockStart n
  have hmod := Int.emod_nonneg p.nBlockStart hpos.ne'
  have hsplit : p.nBlockEnd - (p.nBlockStart - p.nBlockStart % n) =
      p.nBlockEnd + n * -(p.nBlockStart / n) := by
    rw [Int.mul_neg]
    omega
  rw [Int.tmod_eq_emod_of_nonneg hstart, Int.tdiv_eq_ediv_of_nonneg (by omega), hsplit,
    Int.add_mul_ediv_left _ _ hpos.ne']
  omega

/-- **When a proposal is paid too often.** A well-formed proposal is payable in no more cycles than
it counts, and than the network allows, unless it begins with a superblock and ends right before
one, or it is one of the proposals whose payments were not limited yet. -/
theorem payments_le_iff {nTotalBudget : Int} (h : p.isWellFormed env nTotalBudget = .ok ()) :
    let n := env.params.nBudgetCycleBlocks
    ((p.payableCycles env).Finite ∧
      ((p.payableCycles env).ncard : Int) ≤ p.getTotalPaymentCount env ∧
      ((p.payableCycles env).ncard : Int) ≤ env.nMaxProposalPayments) ↔
    ¬ (0 < p.nBlockStart ∧ n ∣ p.nBlockStart ∧ n ∣ p.nBlockEnd + 1) ∧
      (networkUpgradeActive p.nBlockStart env.params.upgradeV5_0 = true ∨
        cycleCount n p.nBlockStart p.nBlockEnd ≤ env.nMaxProposalPayments) := by
  intro n
  obtain ⟨hstart, hend, hlimit⟩ := checkStartEnd_of_isWellFormed h
  obtain ⟨hfinite, hcard⟩ := @payableCycles_card env p
  have hcount := cycleCount_le_iff env.params.nBudgetCycleBlocks_pos hstart hend
  rw [← getTotalPaymentCount_eq hstart hend] at hcount
  rw [hcard, hcount]
  refine ⟨fun hle => ⟨hle.2.1, .inr hle.2.2⟩, fun hle => ⟨hfinite, hle.1, ?_⟩⟩
  rcases hle.2 with hnew | hmax
  · exact (hcount.mpr hle.1).trans (hlimit hnew)
  · exact hmax

end BudgetProposal

namespace Sample

/-- A proposal for 20 payments, the most that are allowed, by its first and last block. -/
def overpaid : BudgetProposal := { paidBySeven "a" with nBlockStart := 432, nBlockEnd := 432 + 21 * 144 - 1 }

/-- The proposal is well-formed, and payable in 21 cycles. -/
theorem overpaid_payments : overpaid.isWellFormed budgetEnv (100 * COIN) = .ok () ∧
      overpaid.getTotalPaymentCount budgetEnv = 20 ∧ budgetEnv.nMaxProposalPayments = 20 ∧
      ((overpaid.payableCycles budgetEnv).ncard : Int) = 21 := by
  refine ⟨by decide, by decide, rfl, ?_⟩
  rw [payableCycles_card.2]
  decide

/-- A proposal that is paid once, as it says. -/
theorem paidBySeven_payments : ((paidBySeven "a").payableCycles budgetEnv).Finite ∧
      (((paidBySeven "a").payableCycles budgetEnv).ncard : Int) ≤
        (paidBySeven "a").getTotalPaymentCount budgetEnv ∧
      (((paidBySeven "a").payableCycles budgetEnv).ncard : Int) ≤ budgetEnv.nMaxProposalPayments :=
  (payments_le_iff
    (show (paidBySeven "a").isWellFormed budgetEnv (100 * COIN) = .ok () by decide)).mpr
      ⟨by decide, .inr (by decide)⟩

end Sample

/-! ### The selection -/

/-- **The greedy selection** from a list, with what was allotted before: each element that passes
is taken if it fits the limit, and left out only if it does not. -/
inductive Selects {α : Type} (passes : α → Prop) (cost : α → Int) (limit : Int) :
    Int → List α → List α → Prop
  | done (used : Int) : Selects passes cost limit used [] []
  | take {used : Int} {a : α} {l sel : List α} (hpass : passes a) (hfits : used + cost a ≤ limit)
      (hrest : Selects passes cost limit (used + cost a) l sel) :
      Selects passes cost limit used (a :: l) (a :: sel)
  | skip {used : Int} {a : α} {l sel : List α} (hfull : passes a → limit < used + cost a)
      (hrest : Selects passes cost limit used l sel) : Selects passes cost limit used (a :: l) sel

/-- The costs of a selection stay in the limit. -/
theorem Selects.sum_le {α : Type} {passes : α → Prop} {cost : α → Int} {limit used : Int}
    {l sel} (h : Selects passes cost limit used l sel) (hused : used ≤ limit) :
    used + (sel.map cost).sum ≤ limit := by
  induction h with
  | done => simpa using hused
  | take _ hfits _ ih =>
    rw [map_cons, sum_cons, ← Int.add_assoc]
    exact ih hfits
  | skip _ _ ih => exact ih hused

namespace BudgetProposal

/-- What the proposals are sorted by. -/
def rank (p : BudgetProposal) : Int ×ₗ Nat := toLex ((p.getYeas - p.getNays : Int), p.arithFee)

theorem higherYes_iff {a b : BudgetProposal} : a.higherYes b = true ↔ b.rank < a.rank := by
  unfold higherYes rank
  rw [Prod.Lex.toLex_lt_toLex]
  dsimp only
  split_ifs with heq <;> simp [heq]
  omega

/-- The fee transactions are told apart. -/
theorem arithFee_injective {a b : BudgetProposal} (h : a.arithFee = b.arithFee) :
    a.nFeeTXHash = b.nFeeTXHash := by
  have hbytes : ∀ x : Uint256, Codec.toLE 32 (Codec.ofLE (putUint256 x)) = putUint256 x := by
    intro x
    simpa [putUint256, Codec.putBE] using Codec.toLE_ofLE (putUint256 x)
  have hput : putUint256 a.nFeeTXHash = putUint256 b.nFeeTXHash := by
    rw [← hbytes, ← hbytes b.nFeeTXHash]
    exact congrArg _ h
  have hread := reads_uint256 a.nFeeTXHash []
  rw [hput, reads_uint256 b.nFeeTXHash []] at hread
  simpa using hread.symm

theorem eq_of_rank {l : List BudgetProposal} (hfees : (l.map nFeeTXHash).Nodup)
    {a b : BudgetProposal} (ha : a ∈ l) (hb : b ∈ l) (hle : a.rank ≤ b.rank) (hge : b.rank ≤ a.rank) :
    a = b := by
  have hrank : a.rank = b.rank := le_antisymm hle hge
  have hfee := arithFee_injective (congrArg (fun r => (ofLex r).2) hrank)
  exact inj_on_of_nodup_map hfees ha hb hfee

/-- The order of the selection. -/
def sorted (l : List BudgetProposal) : List BudgetProposal :=
  l.mergeSort fun a b => !b.higherYes a

theorem sorted_pairwise (l : List BudgetProposal) :
    (sorted l).Pairwise fun a b => b.rank ≤ a.rank := by
  refine (pairwise_mergeSort ?_ ?_ l).imp ?_
  all_goals simp only [Bool.not_eq_true', Bool.or_eq_true, ← Bool.not_eq_true, higherYes_iff, not_lt]
  · intro a b c hab hbc
    exact hbc.trans hab
  · intro a b
    exact le_total _ _
  · exact fun h => h

/-- With different fee transactions there is one order. -/
theorem sorted_eq {l l' : List BudgetProposal} (hfees : (l.map nFeeTXHash).Nodup)
    (hperm : l'.Perm l) : sorted l' = sorted l := by
  have hl := mergeSort_perm l fun a b => !b.higherYes a
  have hl' := (mergeSort_perm l' fun a b => !b.higherYes a).trans hperm
  refine Perm.eq_of_pairwise (fun a b ha hb hle hge => ?_) (sorted_pairwise l')
    (sorted_pairwise l) (hl'.trans hl.symm)
  exact eq_of_rank hfees (hl'.mem_iff.mp ha) (hl.mem_iff.mp hb) hge hle

theorem sorted_higherYes {l : List BudgetProposal} (hfees : (l.map nFeeTXHash).Nodup) :
    (sorted l).Pairwise fun a b => a.higherYes b = true := by
  have hperm : (sorted l).Perm l := mergeSort_perm l _
  have hne : (sorted l).Pairwise fun a b => a.nFeeTXHash ≠ b.nFeeTXHash :=
    pairwise_map.mp ((hperm.map _).nodup_iff.mpr hfees)
  refine ((sorted_pairwise l).and hne).imp fun h => higherYes_iff.mpr (h.1.lt_of_ne fun heq => ?_)
  exact h.2 (arithFee_injective (congrArg (fun r => (ofLex r).2) heq)).symm

end BudgetProposal

/-- The loop is the greedy selection, as long as no sum leaves the machine word. -/
theorem allot_selects (env : BudgetEnv) (ctx : BudgetContext) (nBlockStart nBlockEnd : Int)
    {nTotalBudget used : Int} {l} (hused : 0 ≤ used) (hle : used ≤ nTotalBudget)
    (hamounts : ∀ p ∈ l, 0 ≤ p.nAmount ∧ p.nAmount + nTotalBudget < 2 ^ 63) :
    Selects (fun p => p.isPassing env ctx nBlockStart nBlockEnd ctx.nCountEnabled = true)
      nAmount nTotalBudget used l (allot env ctx nBlockStart nBlockEnd nTotalBudget used l) := by
  induction l generalizing used with
  | nil => exact .done used
  | cons p l ih =>
    obtain ⟨⟨hnonneg, hword⟩, hrest⟩ := forall_mem_cons.mp hamounts
    have hsum : wrap64 (p.nAmount + used) = used + p.nAmount := by
      rw [wrap64_eq (by omega) (by omega), Int.add_comm]
    have hsum' : wrap64 (used + p.nAmount) = used + p.nAmount := by rw [Int.add_comm, hsum, Int.add_comm]
    simp only [allot, hsum, hsum', Bool.and_eq_true, decide_eq_true_eq]
    split_ifs with htake
    · exact .take htake.1 htake.2 (ih (by omega) htake.2 hrest)
    · exact .skip (fun hpass => not_le.mp fun hfits => htake ⟨hpass, hfits⟩) (ih hused hle hrest)

theorem getTotalBudget_nonneg (params : NetworkParams) (h : Int) : 0 ≤ params.getTotalBudget h := by
  have hvalue : 0 ≤ params.getBlockValue h := by
    dsimp only [NetworkParams.getBlockValue, COIN]
    split_ifs <;> decide
  exact Int.mul_nonneg (Int.tdiv_nonneg hvalue (by decide)) params.nBudgetCycleBlocks_pos.le

/-- The first block of the next cycle. -/
def nextSuperblock (env : BudgetEnv) (ctx : BudgetContext) : Int :=
  ctx.nBestHeight - ctx.nBestHeight.tmod env.params.nBudgetCycleBlocks + env.params.nBudgetCycleBlocks

theorem getBudget_eq {env} {ctx} {mapProposals}
    (hheight : 0 < ctx.nBestHeight) : (getBudget env ctx mapProposals).1 =
      allot env ctx (nextSuperblock env ctx)
        (nextSuperblock env ctx + env.params.nBudgetCycleBlocks - 1)
        (env.params.getTotalBudget (nextSuperblock env ctx)) 0
        (sorted (mapProposals.toList.map fun e => e.2.removeStaleVotes ctx)) := by
  have hlist : ((mapProposals.map fun _ p => p.removeStaleVotes ctx).toList.map Prod.snd) =
      mapProposals.toList.map fun e => e.2.removeStaleVotes ctx := by
    rw [Std.ExtTreeMap.toList_map, map_map]
    rfl
  rw [← hlist]
  exact congrArg Prod.fst (if_neg (not_le.mpr hheight))

namespace Sample

/-- A proposal for which the first `n` masternodes voted. -/
def votedFor (n : Nat) (p : BudgetProposal) : BudgetProposal :=
  { p with mapVotes := FMap.ofEntries ((range n).map fun i =>
      (⟨5, UInt32.ofNat i⟩, ⟨budgetVote (UInt32.ofNat i) 1 1000, true⟩)) }

/-- A proposal with two votes, and one with one vote and another amount. -/
def rivals (nAmount : Int) : FMap Uint256 BudgetProposal :=
  FMap.ofEntries [(1, votedFor 2 (paidBySeven "a")),
    (2, votedFor 1 { paidBySeven "bb" with nFeeTXHash := 8, nAmount })]

end Sample

/-! ### The payments of a finalized budget -/

/-- **When an accepted budget pays each winning proposal once**, to its address and with its amount:
exactly if no two of its payments are for the same proposal. -/
theorem BudgetFinalization.checkProposals_perm_iff {b : BudgetFinalization}
    {mapWinningProposals : FMap Uint256 BudgetProposal}
    (h : b.checkProposals mapWinningProposals = true) :
    (b.vecBudgetPayments.map fun p => (p.nProposalHash, p.payee, p.nAmount)).Perm
        (mapWinningProposals.toList.map fun e => (e.1, e.2.address, e.2.nAmount)) ↔
      (b.vecBudgetPayments.map TxBudgetPayment.nProposalHash).Nodup := by
  simp only [checkProposals, Bool.and_eq_true, all_eq_true, decide_eq_true_eq] at h
  obtain ⟨⟨-, hsize⟩, hpayments⟩ := h
  constructor
  · intro hperm
    have hhashes := hperm.map Prod.fst
    rw [map_map, map_map] at hhashes
    exact hhashes.nodup_iff.mpr (FMap.nodup_keys mapWinningProposals)
  · intro hnodup
    refine (subperm_of_subset ?_ ?_).perm_of_length_le ?_
    · refine Nodup.of_map Prod.fst ?_
      rw [map_map]
      exact hnodup
    · intro x hx
      obtain ⟨payment, hpayment, rfl⟩ := mem_map.mp hx
      have hfound := hpayments payment hpayment
      cases hget : mapWinningProposals[payment.nProposalHash]? with
      | none => simp [hget] at hfound
      | some prop =>
        simp only [hget, Bool.and_eq_true, decide_eq_true_eq] at hfound
        rw [hfound.1, hfound.2]
        exact mem_map.mpr ⟨_, FMap.mem_toList.mpr hget, rfl⟩
    · rw [length_map, length_map, Std.ExtTreeMap.length_toList, hsize]

namespace Sample

/-- A budget that pays 10 coins for each of these proposals. -/
def paying (hashes : List Uint256) : BudgetFinalization where
  strBudgetName := "main"
  nBlockStart := 144
  vecBudgetPayments :=
    hashes.map fun nProposalHash => { proposalPayment with nProposalHash, payee := [0x76] }
  nFeeTXHash := 9

def twoWinners : FMap Uint256 BudgetProposal :=
  winningProposals budgetEnv [paidBySeven "a", paidBySeven "bb"]

/-- Each of the two is paid. -/
theorem each_paid_once : (paying [2, 1]).checkProposals twoWinners = true ∧
      ((paying [2, 1]).vecBudgetPayments.map fun p => (p.nProposalHash, p.payee, p.nAmount)).Perm
        (twoWinners.toList.map fun e => (e.1, e.2.address, e.2.nAmount)) := by
  have h : (paying [2, 1]).checkProposals twoWinners = true := by decide +kernel
  exact ⟨h, (BudgetFinalization.checkProposals_perm_iff h).mpr (by decide)⟩

/-- **One proposal is paid twice and the other one not at all.** The budget is accepted. -/
theorem one_paid_twice : (paying [1, 1]).checkProposals twoWinners = true ∧
      ¬ ((paying [1, 1]).vecBudgetPayments.map fun p => (p.nProposalHash, p.payee, p.nAmount)).Perm
        (twoWinners.toList.map fun e => (e.1, e.2.address, e.2.nAmount)) := by
  decide +kernel

end Sample

/-! ### The votes on finalized budgets -/

namespace BudgetFinalization

variable (ctx : BudgetContext) (b : BudgetFinalization)

/-- `RemoveStaleVotesOnFinalBudget`: the votes, with the flag that it sets. -/
def removeStaleVotes : FMap OutPoint (FinalizedBudgetVote × Bool) :=
  b.mapVotes.map fun o v => (v, voterValid ctx o)

def getVoteCount : Nat := b.mapVotes.size

/-- The number of votes that are valid after that, one for each masternode. -/
def validVoteCount : Nat := (b.removeStaleVotes ctx).countP fun _ v => v.2

end BudgetFinalization

/-- The manager, with a count of the votes on each budget. -/
def managerOf (ctx : BudgetContext) (budgets : FMap Uint256 BudgetFinalization)
    (count : BudgetFinalization → Nat) : BudgetManager :=
  ⟨budgets.toList.map fun e => ⟨count e.2, e.2.nBlockStart, e.2.vecBudgetPayments⟩, ctx.nCountEnabled⟩

theorem BudgetFinalization.getVoteCount_eq_iff {ctx : BudgetContext} {b : BudgetFinalization} :
    b.getVoteCount = b.validVoteCount ctx ↔ b.mapVotes.All fun o _ => voterValid ctx o := by
  rw [validVoteCount, FMap.countP, removeStaleVotes, Std.ExtTreeMap.toList_map, countP_map,
    getVoteCount, ← Std.ExtTreeMap.length_toList, eq_comm, countP_eq_length]
  exact ⟨fun h o v hv => h (o, v) (FMap.mem_toList.mpr hv), fun h e he => h (FMap.mem_toList.mp he)⟩

/-- **When only the votes of valid masternodes decide** which budget is paid: the counts that the
manager works with are the counts of valid votes exactly if no vote is stale. -/
theorem managerOf_valid_iff {ctx : BudgetContext} {budgets : FMap Uint256 BudgetFinalization} :
    managerOf ctx budgets BudgetFinalization.getVoteCount =
        managerOf ctx budgets (BudgetFinalization.validVoteCount ctx) ↔
      budgets.All fun _ b => b.mapVotes.All fun o _ => voterValid ctx o := by
  simp only [managerOf, BudgetManager.mk.injEq, and_true, map_inj_left, FinalizedBudget.mk.injEq,
    BudgetFinalization.getVoteCount_eq_iff]
  exact ⟨fun h hash b hb => h (hash, b) (FMap.mem_toList.mpr hb),
    fun h e he => h (FMap.mem_toList.mp he)⟩

namespace Sample

/-- A budget with one vote, of a masternode that is not there any more. -/
def staleVoted : FMap Uint256 BudgetFinalization :=
  (∅ : FMap Uint256 BudgetFinalization).insert 4 { paying [1] with
    mapVotes := (∅ : FMap OutPoint FinalizedBudgetVote).insert ⟨6, 0⟩ ⟨⟨⟨6, 0⟩, []⟩, 4, 1000, [], .hash⟩ }

/-- **A budget is paid by a stale vote.** -/
theorem staleVoted_paid :
    (managerOf burnTwice staleVoted BudgetFinalization.getVoteCount).getPayeeAndAmount 144 =
        some ([0x76], 10 * COIN) ∧
      (managerOf burnTwice staleVoted (BudgetFinalization.validVoteCount burnTwice)).getPayeeAndAmount
        144 = none := by
  decide +kernel

end Sample

end KmushiCoin
