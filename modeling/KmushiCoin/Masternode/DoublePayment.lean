import KmushiCoin.Lib.Runs
import KmushiCoin.Masternode.PaymentChecks

/-!
# KmushiCoin.Masternode.DoublePayment

**Is a proposal paid twice?** A node connects and disconnects blocks, checks templates, and gets
other finalized budgets in between. Each block of its active chain carries the proposal that it was
accepted as paying.

* The payment history has the *first* block that was checked for a proposal. As long as that block
  is on the active chain, no other block can pay the proposal (`ChainInv.recorded`).
* The record of a block that is not connected, or is disconnected later, is never replaced; then
  any number of blocks can pay the proposal. `no_double_payment` excludes just that, and going back
  to an earlier payment cycle, whose records are gone.
-/

namespace KmushiCoin

open List FinalizedBudget

/-- A block of the active chain, with the proposal that it was accepted as paying. -/
structure PaidBlock where
  hash : Uint256
  nHeight : Int
  paid : Option Uint256
  deriving Repr, DecidableEq

/-- The active chain, the tip first, and the variables of the process. -/
structure BudgetChain where
  chain : List PaidBlock := []
  globals : PaymentGlobals := {}

/-- The budget that counts at a height and its payment. -/
def PaymentsState.duePayment (st : PaymentsState) (h : Int) :
    Option (FinalizedBudget × TxBudgetPayment) := do
  let b ← st.budgetman.getBudgetWithHighestVoteCount h
  let p ← b.vecBudgetPayments[(h - b.nBlockStart).toNat]?
  some (b, p)

/-- The proposal that a block is accepted as paying. -/
def acceptedPayment (params : NetworkParams) (st : PaymentsState) (nBlockHash : Uint256)
    (vtx : List Transaction) (h : Int) (history : PaymentHistory) : Option Uint256 :=
  match paidOutputs params h vtx with
  | .error _ => none
  | .ok vout =>
    if st.isSynced && budgetPaid st nBlockHash h vout history then
      (st.duePayment h).map fun due => due.2.nProposalHash
    else none

variable {paid : Option Uint256}

namespace BudgetChain

/-- The height of the block on top of the tip. -/
def nextHeight (s : BudgetChain) : Int := s.chain.length

/-- What happens to the chain. What the node knows at the time, budgets and votes included, comes
with the event. -/
inductive Event
  /-- A block on top of the tip: it is connected if its payees are valid. -/
  | connect (st : PaymentsState) (nBlockHash : Uint256) (vtx : List Transaction)
  /-- A block on top of the tip that is checked only, or that fails after this check. -/
  | justCheck (st : PaymentsState) (nBlockHash : Uint256) (vtx : List Transaction)
  /-- A block that is connected without this check, in the initial download. -/
  | connectUnchecked (nBlockHash : Uint256)
  | disconnectTip

section
variable (params : NetworkParams)

def step (s : BudgetChain) : Event → BudgetChain
  | .connect st nBlockHash vtx =>
    match (isBlockPayeeValid params st nBlockHash vtx s.nextHeight).exec s.globals with
    | (.ok true, globals) =>
      let paid := acceptedPayment params st nBlockHash vtx s.nextHeight s.globals.history
      ⟨⟨nBlockHash, s.nextHeight, paid⟩ :: s.chain, globals⟩
    | (_, globals) => { s with globals := globals }
  | .justCheck st nBlockHash vtx =>
    { s with
      globals := ((isBlockPayeeValid params st nBlockHash vtx s.nextHeight).exec s.globals).2 }
  | .connectUnchecked nBlockHash => { s with chain := ⟨nBlockHash, s.nextHeight, none⟩ :: s.chain }
  | .disconnectTip => { s with chain := s.chain.tail }

/-- The first height of a payment cycle. -/
def cycleStart (h : Int) : Int := h - h % params.nBudgetCycleBlocks

/-- **No proposal is paid twice** in a payment cycle of the active chain. -/
def NoDoublePayment (s : BudgetChain) : Prop :=
  ∀ A ∈ s.chain, ∀ B ∈ s.chain, ∀ p, A.paid = some p → B.paid = some p →
    cycleStart params A.nHeight = cycleStart params B.nHeight → A = B

/-- What the node knows when it checks a block: its own chain, and finalized budgets that passed
`CheckStartEnd`. -/
structure Fits (s : BudgetChain) (st : PaymentsState) : Prop where
  active : ∀ x, (st.activeHeight x).isSome = true ↔ x ∈ s.chain.map PaidBlock.hash
  wellFormed : ∀ b ∈ st.budgetman.mapFinalizedBudgets,
    b.nBlockStart % params.nBudgetCycleBlocks = 0 ∧ b.vecBudgetPayments.length ≤ 100

/-- The event is about a block on top of the tip. A block hash has one height (`blockHeight`), and
it is not one of the chain below. -/
def Possible (blockHeight : Uint256 → Int) (s : BudgetChain) : Event → Prop
  | .connect st nBlockHash _ | .justCheck st nBlockHash _ =>
    Fits params s st ∧ blockHeight nBlockHash = s.nextHeight ∧
      nBlockHash ∉ s.chain.map PaidBlock.hash
  | .connectUnchecked nBlockHash =>
    blockHeight nBlockHash = s.nextHeight ∧ nBlockHash ∉ s.chain.map PaidBlock.hash
  | .disconnectTip => True

/-- **The condition of a step.** When a block is connected, the block on record for the proposal
that is due in its payment cycle, if there is one, is on the active chain or is this block; and the
last block of a payment cycle is not disconnected. -/
def RecordOnChain (s : BudgetChain) : Event → Prop
  | .connect st nBlockHash _ =>
    ∀ b p, st.duePayment s.nextHeight = some (b, p) →
      ∀ x k, s.globals.history[p.nProposalHash]? = some (x, k) → b.nBlockStart ≤ k →
        k ≤ b.getBlockEnd → x = nBlockHash ∨ x ∈ s.chain.map PaidBlock.hash
  | .disconnectTip => s.nextHeight % params.nBudgetCycleBlocks ≠ 0
  | .justCheck _ _ _ | .connectUnchecked _ => True

end

/-! ### What a check does -/

section
variable {params : NetworkParams} {st : PaymentsState} {nBlockHash : Uint256}
  {vtx : List Transaction} {h : Int} {g : PaymentGlobals}

variable (params st nBlockHash vtx h g) in
/-- A check leaves the history alone, or it asks about the payment that is due. -/
theorem isBlockPayeeValid_history :
    (((isBlockPayeeValid params st nBlockHash vtx h).exec g).2.history = g.history ∧
        acceptedPayment params st nBlockHash vtx h g.history = none) ∨
      ∃ b p, st.duePayment h = some (b, p) ∧ st.budgetman.getBudgetWithHighestVoteCount h = some b ∧
        ((isBlockPayeeValid params st nBlockHash vtx h).exec g).2.history =
          (b.isPaidAlready (fun x => (st.activeHeight x).isSome) p.nProposalHash nBlockHash h
            g.history).2 ∧ ∀ q, acceptedPayment params st nBlockHash vtx h g.history = some q →
          q = p.nProposalHash ∧
          (b.isPaidAlready (fun x => (st.activeHeight x).isSome) p.nProposalHash nBlockHash h
            g.history).1 = false := by
  unfold acceptedPayment
  cases hsynced : st.isSynced with
  | false =>
    left
    have hpure : isBlockPayeeValid params st nBlockHash vtx h = pure true := by
      simp [isBlockPayeeValid, hsynced]
    rw [hpure]
    refine ⟨rfl, ?_⟩
    cases paidOutputs params h vtx <;> simp
  | true =>
    cases hvout : paidOutputs params h vtx with
    | error e =>
      left
      simp [isBlockPayeeValid, hsynced, hvout, Prog.exec_bind]
    | ok vout =>
      rw [exec_isBlockPayeeValid hsynced hvout]
      cases hsuper : isSuperblock st h with
      | false => simp [PaymentGlobals.afterPayee, hsuper, budgetPaid]
      | true =>
        right
        have hblock : st.budgetman.isBudgetPaymentBlock h = true :=
          (Bool.and_eq_true_iff.mp hsuper).2
        obtain ⟨b, p, hb, -, -, hp, -, -⟩ := BudgetManager.payment_of_isBudgetPaymentBlock hblock
        have hdue : st.duePayment h = some (b, p) := by simp [PaymentsState.duePayment, hb, hp]
        have hcheck := BudgetManager.isTransactionValid_payment hblock hb hp
          (fun x => (st.activeHeight x).isSome) vout nBlockHash g.history
        refine ⟨b, p, hdue, hb, ?_, fun q hq => ?_⟩
        · simp only [PaymentGlobals.afterPayee, hsuper, if_true, budgetCheck, hcheck]
        · rw [hdue] at hq
          simp only [Bool.true_and, Option.map_some, Option.ite_none_right_eq_some,
            Option.some.injEq] at hq
          refine ⟨hq.2.symm, ?_⟩
          have hpaid := hq.1
          simp only [budgetPaid, hsuper, Bool.true_and, budgetCheck, hcheck, beq_iff_eq] at hpaid
          by_contra hnot
          rw [if_neg fun hboth => hnot hboth.1] at hpaid
          cases hpaid

end

/-! ### Payment cycles -/

section
variable (params : NetworkParams)

theorem cycleStart_eq (h : Int) :
    cycleStart params h = params.nBudgetCycleBlocks * (h / params.nBudgetCycleBlocks) := by
  have hsplit := Int.mul_ediv_add_emod h params.nBudgetCycleBlocks
  unfold cycleStart
  omega

theorem cycleStart_le (h : Int) : cycleStart params h ≤ h := by
  have hmod := Int.emod_nonneg h (ne_of_gt params.nBudgetCycleBlocks_pos)
  unfold cycleStart
  omega

theorem cycleStart_mono {a b : Int} (hab : a ≤ b) : cycleStart params a ≤ cycleStart params b := by
  rw [cycleStart_eq, cycleStart_eq]
  exact Int.mul_le_mul_of_nonneg_left (Int.ediv_le_ediv params.nBudgetCycleBlocks_pos hab)
    params.nBudgetCycleBlocks_pos.le

/-- The first height of a cycle is the one that the cycle divides, less than a cycle before. -/
theorem cycleStart_unique {h start : Int} (hdvd : start % params.nBudgetCycleBlocks = 0)
    (hle : start ≤ h) (hlt : h < start + params.nBudgetCycleBlocks) :
    cycleStart params h = start := by
  have hsplit := Int.mul_ediv_add_emod start params.nBudgetCycleBlocks
  have hdiv : h / params.nBudgetCycleBlocks = start / params.nBudgetCycleBlocks :=
    ((Int.ediv_emod_unique (r := h - start) params.nBudgetCycleBlocks_pos).mpr
      ⟨by omega, by omega, by omega⟩).1
  rw [cycleStart_eq, hdiv]
  omega

/-- The height before one that does not start a cycle. -/
theorem cycleStart_pred {n : Int} (hn : n % params.nBudgetCycleBlocks ≠ 0) :
    cycleStart params (n - 1) = cycleStart params n := by
  have hpos := params.nBudgetCycleBlocks_pos
  have hmod := Int.emod_nonneg n (ne_of_gt hpos)
  have hlt := Int.emod_lt_of_pos n hpos
  refine cycleStart_unique params ?_ ?_ ?_
  · rw [cycleStart_eq]
    exact Int.mul_emod_right _ _
  · unfold cycleStart
    omega
  · unfold cycleStart
    omega

/-- A budget that counts at a height starts at the first height of the cycle. -/
theorem Fits.cycleStart_eq {params} {s} {st}
    (h : Fits params s st) (hcycle : 100 ≤ params.nBudgetCycleBlocks) {n : Int}
    {b} (hb : st.budgetman.getBudgetWithHighestVoteCount n = some b) :
    cycleStart params n = b.nBlockStart ∧ n ≤ b.getBlockEnd := by
  obtain ⟨hmem, hstart, hend⟩ := BudgetManager.getBudgetWithHighestVoteCount_spec hb
  obtain ⟨hdvd, hlen⟩ := h.wellFormed b hmem
  refine ⟨cycleStart_unique params hdvd hstart ?_, hend⟩
  unfold getBlockEnd at hend
  omega

end

/-! ### The invariant -/

/-- Each block is one higher than the block below it. -/
def Heights : List PaidBlock → Prop
  | [] => True
  | A :: chain => A.nHeight = chain.length ∧ Heights chain

theorem Heights.lt {chain} (h : Heights chain) {A} (hA : A ∈ chain) : A.nHeight < chain.length := by
  induction chain with
  | nil => simp at hA
  | cons T chain ih =>
    rw [length_cons, Nat.cast_add, Nat.cast_one]
    rcases mem_cons.mp hA with rfl | hA
    · have hheight := h.1
      omega
    · have hlt := ih h.2 hA
      omega

/-- **The invariant.** Hashes and heights of the chain are in order, a record has the height of its
block, and what a block of the current cycle pays is on record with that block. -/
structure ChainInv (params : NetworkParams) (blockHeight : Uint256 → Int) (s : BudgetChain) :
    Prop where
  nodup : (s.chain.map PaidBlock.hash).Nodup
  heights : Heights s.chain
  keyed : ∀ (p : Uint256) e, s.globals.history[p]? = some e → blockHeight e.1 = e.2
  recorded : ∀ A ∈ s.chain, ∀ p, A.paid = some p →
    cycleStart params A.nHeight = cycleStart params s.nextHeight →
    s.globals.history[p]? = some (A.hash, A.nHeight)
  single : NoDoublePayment params s

namespace ChainInv

variable {params : NetworkParams} {blockHeight : Uint256 → Int} {s : BudgetChain}
  {st : PaymentsState} {nBlockHash : Uint256} {vtx : List Transaction}

variable (params blockHeight) in
theorem init : ChainInv params blockHeight {} where
  nodup := nodup_nil
  heights := trivial
  keyed p e he := by simp at he
  recorded A hA := by simp at hA
  single A hA := by simp at hA

variable (h : ChainInv params blockHeight s)
include h

/-- A check keeps the invariant. -/
theorem check (hcycle : 100 ≤ params.nBudgetCycleBlocks) (hfits : Fits params s st)
    (hheight : blockHeight nBlockHash = s.nextHeight) :
    ChainInv params blockHeight { s with
      globals :=
        ((isBlockPayeeValid params st nBlockHash vtx s.nextHeight).exec s.globals).2 } := by
  rcases isBlockPayeeValid_history params st nBlockHash vtx s.nextHeight s.globals with
    ⟨hsame, -⟩ | ⟨b, p, -, hb, hhistory, -⟩
  · refine ⟨h.nodup, h.heights, ?_, ?_, h.single⟩
    · rw [hsame]
      exact h.keyed
    · rw [hsame]
      exact h.recorded
  · obtain ⟨hstart, hend⟩ := hfits.cycleStart_eq hcycle hb
    refine ⟨h.nodup, h.heights, fun q e he => ?_, fun A hA q hq hcycle' => ?_, h.single⟩
    · rw [hhistory] at he
      rcases isPaidAlready_history he with he | rfl
      · exact h.keyed q e he
      · exact hheight
    · rw [hhistory]
      have hlt : A.nHeight < s.nextHeight := h.heights.lt hA
      refine isPaidAlready_keeps (h.recorded A hA q hq hcycle') ?_ (by omega)
      have hcurrent : cycleStart params A.nHeight = cycleStart params s.nextHeight := hcycle'
      rw [← hstart, ← hcurrent]
      exact cycleStart_le params A.nHeight

/-- A new block keeps it, if what it pays is on record with it and nothing else of the cycle pays
the same. -/
theorem extend (hnew : nBlockHash ∉ s.chain.map PaidBlock.hash)
    (hrecord : ∀ p, paid = some p → s.globals.history[p]? = some (nBlockHash, s.nextHeight)) :
    ChainInv params blockHeight
      { s with chain := ⟨nBlockHash, s.nextHeight, paid⟩ :: s.chain } := by
  have hnext : ({ s with chain := ⟨nBlockHash, s.nextHeight, paid⟩ :: s.chain } :
      BudgetChain).nextHeight = s.nextHeight + 1 := by
    simp [nextHeight]
  -- no other block of the cycle pays the proposal, as its record would have another hash
  have hother : ∀ B ∈ s.chain, ∀ p, paid = some p → B.paid = some p →
      cycleStart params B.nHeight ≠ cycleStart params s.nextHeight := by
    intro B hB p hp hBp hcycle
    have hsame := (h.recorded B hB p hBp hcycle).symm.trans (hrecord p hp)
    have hhash : B.hash = nBlockHash := congrArg Prod.fst (Option.some.inj hsame)
    exact hnew (hhash ▸ mem_map_of_mem hB)
  refine ⟨?_, ⟨rfl, h.heights⟩, h.keyed, fun A hA p hp hcycle => ?_,
    fun A hA B hB p hAp hBp hcycle => ?_⟩
  · rw [map_cons, nodup_cons]
    exact ⟨hnew, h.nodup⟩
  · rw [hnext] at hcycle
    rcases mem_cons.mp hA with rfl | hA
    · exact hrecord p hp
    · have hlt : A.nHeight < s.nextHeight := h.heights.lt hA
      exact h.recorded A hA p hp (le_antisymm (cycleStart_mono params (by omega))
        (hcycle ▸ cycleStart_mono params (by omega)))
  · rcases mem_cons.mp hA with rfl | hA <;> rcases mem_cons.mp hB with rfl | hB
    · rfl
    · exact absurd hcycle.symm (hother B hB p hAp hBp)
    · exact absurd hcycle (hother A hA p hBp hAp)
    · exact h.single A hA B hB p hAp hBp hcycle

/-- Without the last block of a cycle, the current cycle stays. -/
theorem disconnect (hcycle : s.nextHeight % params.nBudgetCycleBlocks ≠ 0) :
    ChainInv params blockHeight { s with chain := s.chain.tail } := by
  obtain ⟨chain, g⟩ := s
  cases chain with
  | nil => exact h
  | cons T chain =>
    have hnext : (BudgetChain.mk chain g).nextHeight = (BudgetChain.mk (T :: chain) g).nextHeight - 1 := by
      simp [nextHeight]
    have hmem : ∀ A ∈ chain, A ∈ T :: chain := fun A hA => .tail _ hA
    refine ⟨(nodup_cons.mp h.nodup).2, h.heights.2, h.keyed, fun A hA p hp hsame => ?_,
      fun A hA B hB => h.single A (hmem A hA) B (hmem B hB)⟩
    refine h.recorded A (hmem A hA) p hp ?_
    rwa [← cycleStart_pred params hcycle, ← hnext]

/-- **What a block is accepted as paying is on record with that block**, under the condition of the
step. -/
theorem accepted_recorded (hfits : Fits params s st)
    (hheight : blockHeight nBlockHash = s.nextHeight)
    (hrecord : RecordOnChain params s (.connect st nBlockHash vtx)) {q}
    (hq : acceptedPayment params st nBlockHash vtx s.nextHeight s.globals.history = some q) :
    ((isBlockPayeeValid params st nBlockHash vtx s.nextHeight).exec s.globals).2.history[q]? =
      some (nBlockHash, s.nextHeight) := by
  rcases isBlockPayeeValid_history params st nBlockHash vtx s.nextHeight s.globals with
    ⟨-, hnone⟩ | ⟨b, p, hdue, hb, hhistory, haccepted⟩
  · simp [hnone] at hq
  · obtain ⟨rfl, hunpaid⟩ := haccepted q hq
    rw [hhistory]
    rcases isPaidAlready_recorded with hnow | ⟨⟨x, k⟩, he, hstart, hend, hkept⟩
    · exact hnow
    · -- the record is of this block, which was checked before; another one would be on the chain
      have hk : blockHeight x = k := h.keyed _ _ he
      by_cases hx : x = nBlockHash
      · rw [hkept, ← hk, hx, hheight]
      · have hactive := (hfits.active x).mpr ((hrecord b p hdue x k he hstart hend).resolve_left hx)
        have hpaid := (isPaidAlready_iff (fun x => (st.activeHeight x).isSome)
          s.nextHeight).mpr ⟨x, k, he, hstart, hend, hx, hactive⟩
        simp [hunpaid] at hpaid

/-- One step. -/
theorem step (hcycle : 100 ≤ params.nBudgetCycleBlocks) {e}
    (hpossible : Possible params blockHeight s e) (hrecord : RecordOnChain params s e) :
    ChainInv params blockHeight (s.step params e) := by
  cases e with
  | connect st nBlockHash vtx =>
    obtain ⟨hfits, hheight, hnew⟩ := hpossible
    have hchecked : ChainInv params blockHeight (s.step params (.justCheck st nBlockHash vtx)) :=
      h.check hcycle hfits hheight
    have hrecorded := fun q => h.accepted_recorded hfits hheight hrecord (q := q)
    dsimp only [BudgetChain.step] at hchecked ⊢
    -- the block is connected, or it is only checked
    generalize (isBlockPayeeValid params st nBlockHash vtx s.nextHeight).exec s.globals = r at *
    rcases r with ⟨_ | _ | _, globals⟩
    · exact hchecked
    · exact hchecked
    · exact hchecked.extend hnew hrecorded
  | justCheck st nBlockHash vtx => exact h.check hcycle hpossible.1 hpossible.2.1
  | connectUnchecked nBlockHash => exact h.extend hpossible.2 fun p hp => by cases hp
  | disconnectTip => exact h.disconnect hrecord

end ChainInv

/-- **No double payment.** In a run in which the block on record for a proposal that is due is on
the active chain (or is the block that is connected), and no reorganisation goes back into an
earlier payment cycle, no two blocks of the active chain in one payment cycle are accepted as
paying the same proposal. -/
theorem no_double_payment (params : NetworkParams) (hcycle : 100 ≤ params.nBudgetCycleBlocks)
    (blockHeight : Uint256 → Int) {s : BudgetChain} (hrun : GuardedRun (step params)
      (fun s e => Possible params blockHeight s e ∧ RecordOnChain params s e) {} s) :
    NoDoublePayment params s :=
  (hrun.invariant (ChainInv.init params blockHeight) fun _ _ h hok =>
    h.step hcycle hok.1 hok.2).single

end BudgetChain

namespace Sample

open BudgetChain (Event step)

/-- The height of a sample block is in the last three digits of its hash. -/
def sampleHeight (x : Uint256) : Int := (x.val % 1000 : Nat)

/-- A chain of blocks from the initial download. -/
def downloaded (n : Nat) : BudgetChain :=
  { chain := (range n).reverse.map fun i => ⟨Fin.ofNat _ i, i, none⟩ }

def otherPayment : TxBudgetPayment :=
  { proposalPayment with nProposalHash := 41, payee := [2] }

/-- Two finalized budgets of one cycle that pay the same proposals in different blocks. -/
def firstBudget : FinalizedBudget := ⟨3, 144, [proposalPayment, otherPayment]⟩

def secondBudget : FinalizedBudget := ⟨4, 144, [otherPayment, proposalPayment]⟩

/-- The node at height 144, with the first budget. -/
def atCycleStart : PaymentsState :=
  { paymentsState with
    budgetman := ⟨[firstBudget], 0⟩
    activeHeight := fun x => if x.val < 144 then some x.val else none
    exists_off_chain := ⟨1144, by decide⟩ }

/-- The node one block later, with some finalized budgets. -/
def oneBlockLater (budgets : List FinalizedBudget) : PaymentsState :=
  { paymentsState with
    budgetman := ⟨budgets, 0⟩
    activeHeight := fun x => if x.val < 144 ∨ x = 1144 then some (sampleHeight x) else none
    exists_off_chain := ⟨1145, by decide⟩ }

/-- A template that pays the first proposal. -/
def unusedTemplate : Event := .justCheck atCycleStart 2144 [payingCoinbase (10 * COIN) [1]]

/-- A block that pays the first proposal. -/
def firstPayment : Event := .connect atCycleStart 1144 [payingCoinbase (10 * COIN) [1]]

/-- Another one, when the second budget has more votes. -/
def paymentAgain : Event :=
  .connect (oneBlockLater [firstBudget, secondBudget]) 1145 [payingCoinbase (10 * COIN) [1]]

/-- A block that pays the second proposal. -/
def secondPayment : Event :=
  .connect (oneBlockLater [firstBudget]) 1145 [payingCoinbase (10 * COIN) [2]]

end Sample

namespace BudgetChain

open Sample

theorem mem_downloaded {n : Nat} (hn : n ≤ 1000) (x : Uint256) :
    x ∈ (downloaded n).chain.map PaidBlock.hash ↔ x.val < n := by
  simp only [downloaded, map_map, mem_map, mem_reverse, mem_range, Function.comp_apply]
  constructor
  · rintro ⟨i, hi, rfl⟩
    rwa [Fin.val_ofNat, Nat.mod_eq_of_lt (by omega)]
  · intro h
    exact ⟨x.val, h, Fin.ext (by rw [Fin.val_ofNat, Nat.mod_eq_of_lt x.isLt])⟩

theorem step_downloaded (n : Nat) :
    (downloaded n).step regtestParams (.connectUnchecked (Fin.ofNat _ n)) = downloaded (n + 1) := by
  simp [step, downloaded, nextHeight, range_succ]

/-- The download is a run. -/
theorem downloaded_run {n : Nat} (hn : n ≤ 1000) :
    GuardedRun (step regtestParams) (fun s e => Possible regtestParams sampleHeight s e ∧
      RecordOnChain regtestParams s e) {} (downloaded n) := by
  induction n with
  | zero => exact .init
  | succ n ih =>
    rw [← step_downloaded]
    refine .next _ (ih (by omega)) ⟨⟨?_, ?_⟩, trivial⟩
    · simp only [sampleHeight, downloaded, nextHeight, Fin.val_ofNat, length_map,
        length_reverse, length_range]
      rw [Nat.mod_eq_of_lt (by omega), Nat.mod_eq_of_lt (by omega)]
    · rw [mem_downloaded (by omega), Fin.val_ofNat, Nat.mod_eq_of_lt (by omega)]
      omega

variable {g : PaymentGlobals} {budgets : List FinalizedBudget}

theorem fits_atCycleStart : Fits regtestParams ⟨(downloaded 144).chain, g⟩ atCycleStart where
  active x := by
    rw [mem_downloaded (by decide)]
    simp only [atCycleStart]
    split_ifs with hx <;> simp [hx]
  wellFormed := by decide

theorem fits_oneBlockLater
    (hwf : ∀ b ∈ budgets, b.nBlockStart % 144 = 0 ∧ b.vecBudgetPayments.length ≤ 100) :
    Fits regtestParams ⟨⟨1144, 144, paid⟩ :: (downloaded 144).chain, g⟩
      (oneBlockLater budgets) where
  active x := by
    rw [map_cons, mem_cons, mem_downloaded (by decide)]
    simp only [oneBlockLater]
    split_ifs with hx
    · simpa [or_comm] using hx
    · simpa [or_comm] using hx
  wellFormed := hwf

theorem possible_atCycleStart {nBlockHash} (hheight : sampleHeight nBlockHash = 144)
    (hnew : 144 ≤ nBlockHash.val) : Fits regtestParams ⟨(downloaded 144).chain, g⟩ atCycleStart ∧
      sampleHeight nBlockHash = 144 ∧ nBlockHash ∉ (downloaded 144).chain.map PaidBlock.hash :=
  ⟨fits_atCycleStart, hheight, by rw [mem_downloaded (by decide)]; omega⟩

theorem possible_oneBlockLater {s}
    (hwf : ∀ b ∈ budgets, b.nBlockStart % 144 = 0 ∧ b.vecBudgetPayments.length ≤ 100)
    (hchain : s.chain = ⟨1144, 144, paid⟩ :: (downloaded 144).chain) :
    Fits regtestParams s (oneBlockLater budgets) ∧ sampleHeight 1145 = s.nextHeight ∧
      1145 ∉ s.chain.map PaidBlock.hash := by
  obtain ⟨chain, g⟩ := s
  obtain rfl : chain = _ := hchain
  refine ⟨fits_oneBlockLater hwf, ?_, ?_⟩
  · rw [nextHeight, length_cons]
    decide +kernel
  · rw [map_cons, mem_cons, mem_downloaded (by decide)]
    show ¬ ((1145 : Uint256) = 1144 ∨ (1145 : Uint256).val < 144)
    decide

/-- **A proposal is paid twice.** The template goes on record for the proposal and is never on the
chain, so the two blocks after it are both accepted as paying the proposal. -/
theorem paid_twice_after_template :
    GuardedRun (step regtestParams) (Possible regtestParams sampleHeight) {}
        ([unusedTemplate, firstPayment, paymentAgain].foldl (step regtestParams) (downloaded 144)) ∧
      ¬ NoDoublePayment regtestParams
        ([unusedTemplate, firstPayment, paymentAgain].foldl (step regtestParams)
          (downloaded 144)) := by
  have hchain : (step regtestParams (step regtestParams (downloaded 144) unusedTemplate)
      firstPayment).chain = ⟨1144, 144, some 40⟩ :: (downloaded 144).chain := by decide +kernel
  constructor
  · refine ((downloaded_run (by decide)).mono fun _ _ hok => hok.1).foldl ⟨?_, ?_, ?_, trivial⟩
    · exact possible_atCycleStart (by decide) (by decide)
    · exact possible_atCycleStart (by decide) (by decide)
    · exact possible_oneBlockLater (by decide) hchain
  · intro hone
    have hsame := hone ⟨1144, 144, some 40⟩ (by decide +kernel) ⟨1145, 145, some 40⟩
      (by decide +kernel) 40 rfl rfl (by decide)
    exact absurd hsame (by decide)

/-- The first budget makes its two payments, in two blocks. -/
theorem both_payments_once :
    ([firstPayment, secondPayment].foldl (step regtestParams) (downloaded 144)).chain.take 2 =
        [⟨1145, 145, some 41⟩, ⟨1144, 144, some 40⟩] ∧ NoDoublePayment regtestParams
        ([firstPayment, secondPayment].foldl (step regtestParams) (downloaded 144)) := by
  have hchain : (step regtestParams (downloaded 144) firstPayment).chain =
      ⟨1144, 144, some 40⟩ :: (downloaded 144).chain := by decide +kernel
  have hpayment : (oneBlockLater [firstBudget]).duePayment
      (step regtestParams (downloaded 144) firstPayment).nextHeight =
      some (firstBudget, otherPayment) := by decide +kernel
  have hnone : (step regtestParams (downloaded 144)
      firstPayment).globals.history[otherPayment.nProposalHash]? = none := by decide +kernel
  refine ⟨by decide +kernel, no_double_payment regtestParams (by decide) sampleHeight ?_⟩
  refine (downloaded_run (by decide)).foldl ⟨⟨?_, ?_⟩, ⟨?_, ?_⟩, trivial⟩
  · exact possible_atCycleStart (by decide) (by decide)
  · intro b p _ x k hrecord
    simp [downloaded] at hrecord
  · exact possible_oneBlockLater (by decide) hchain
  · intro b p hdue x k hrecord
    obtain ⟨rfl, rfl⟩ := Prod.mk.inj (Option.mem_unique hdue hpayment)
    rw [hnone] at hrecord
    cases hrecord

end BudgetChain

end KmushiCoin
