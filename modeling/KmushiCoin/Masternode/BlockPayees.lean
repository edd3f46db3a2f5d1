import KmushiCoin.Evo.BuildListSound
import KmushiCoin.Masternode.PaymentChecks

/-!
# KmushiCoin.Masternode.BlockPayees

**A node and its own blocks**: the outputs that `FillBlockPayee` makes, against the checks that
the same node makes of the block.

* What a block mints is the block value, the budget payment of a superblock and, in
  proof-of-work, the fees, however the payments are split over the outputs (`MadeBlock.minted_eq`).
* The payee that the checks look for is among the outputs: the budget payment, or the payments
  to the masternode (`MadeBlock.masternodePaid`).
* Still a node can reject its own block: the amount of the coinbase is compared with the payment
  at another height, a budget payment is made although the proposal counts as paid, and without
  a masternode to pay the coinbase is empty. `MadeBlock.accepted_iff` has the exact condition.
-/

namespace KmushiCoin

open List Prog Option

/-! ### Taking the payment from the stake -/

section
variable {vout : List TxOut}

@[simp] theorem length_subtractAt (i : Nat) (a : Int) (vout : List TxOut) :
    (subtractAt i a vout).length = vout.length := by
  simp [subtractAt]

variable {i n : Nat}

theorem totalValue_subtractAt (hi : i < vout.length) (a : Int) :
    totalValue (subtractAt i a vout) = totalValue vout - a := by
  rw [subtractAt]
  induction vout generalizing i with
  | nil => simp at hi
  | cons o vout ih =>
    cases i with
    | zero =>
      simp only [modify_zero_cons, totalValue_cons]
      omega
    | succ i =>
      simp only [modify_succ_cons, totalValue_cons, ih (by simpa using hi)]
      omega

/-- The outputs after the changed one stay. -/
theorem drop_subtractAt (hi : i < n) (a : Int) : (subtractAt i a vout).drop n = vout.drop n := by
  apply ext_getElem?
  intro j
  have hne : i ≠ n + j := by omega
  simp [subtractAt, hne]

/-- The same amount from several outputs. -/
theorem subtractAt_all (hn : n ≤ vout.length) (a : Int) {js : List Nat} (hjs : ∀ j ∈ js, j < n) :
    totalValue (js.foldl (fun vout j => subtractAt j a vout) vout) =
        totalValue vout - a * js.length ∧
      (js.foldl (fun vout j => subtractAt j a vout) vout).drop n = vout.drop n ∧
      (js.foldl (fun vout j => subtractAt j a vout) vout).length = vout.length := by
  induction js generalizing vout with
  | nil => simp
  | cons j js ih =>
    have hj := hjs j (.head _)
    have hn' : n ≤ (subtractAt j a vout).length := by rwa [length_subtractAt]
    obtain ⟨htotal, hdrop, hlength⟩ := ih hn' fun i hi => hjs i (.tail _ hi)
    rw [foldl_cons]
    refine ⟨?_, hdrop.trans (drop_subtractAt hj a), by rw [hlength, length_subtractAt]⟩
    rw [htotal, totalValue_subtractAt (by omega), length_cons, Nat.cast_add, Nat.cast_one,
      Int.mul_add, Int.mul_one]
    omega

/-- **The stake pays exactly the payment**, and nothing happens to the outputs after it. -/
theorem subtractMnPaymentFromCoinstake_spec (hn : 2 ≤ n) (hlen : n ≤ vout.length)
    (masternodePayment : Int) :
    ∃ vout', subtractMnPaymentFromCoinstake masternodePayment n vout = .ok vout' ∧
      totalValue vout' = totalValue vout - masternodePayment ∧ vout'.drop n = vout.drop n := by
  have hassert : assert (decide (2 ≤ n)) "stakerOuts >= 2" = .ok () := by simp [assert, hn]
  rw [subtractMnPaymentFromCoinstake, hassert, ok_bind]
  split_ifs with htwo
  · exact ⟨_, rfl, totalValue_subtractAt (by omega) _, drop_subtractAt (by omega) _⟩
  · have hjs : ∀ j ∈ range' 1 (n - 1), j < n := by
      intro j hj
      rw [mem_range'_1] at hj
      omega
    obtain ⟨htotal, hdrop, hlength⟩ :=
      subtractAt_all hlen (masternodePayment.tdiv ((n - 1 : Nat) : Int)) hjs
    refine ⟨_, rfl, ?_, (drop_subtractAt (by omega) _).trans hdrop⟩
    rw [totalValue_subtractAt (by omega), htotal, length_range']
    omega

end

/-! ### The payments to a masternode -/

theorem NetworkParams.getBlockValue_range (params : NetworkParams) (h : Int) :
    0 ≤ params.getBlockValue h ∧ params.getBlockValue h ≤ 6300000 * COIN := by
  dsimp only [getBlockValue]
  split_ifs <;> simp [COIN]

theorem NetworkParams.masternodeReward_range (params : NetworkParams) (h : Int) :
    0 ≤ params.masternodeReward h ∧ params.masternodeReward h ≤ params.getBlockValue h :=
  params.getMasternodePayment_le h (params.getBlockValue_range h).1

theorem operatorReward_range {dmn} {r : Int} (hr : 0 ≤ r)
    (hdmn : dmn.nOperatorReward ≤ 10000) : 0 ≤ operatorReward dmn r ∧ operatorReward dmn r ≤ r := by
  unfold operatorReward
  have hnat : dmn.nOperatorReward.toNat ≤ 10000 := UInt16.le_iff_toNat_le.mp hdmn
  have hmul : 0 ≤ r * (dmn.nOperatorReward.toNat : Int) := Int.mul_nonneg hr (by omega)
  have hle : r * (dmn.nOperatorReward.toNat : Int) ≤ r * 10000 :=
    Int.mul_le_mul_of_nonneg_left (by omega) hr
  split_ifs
  · rw [Int.tdiv_eq_ediv_of_nonneg hmul]
    omega
  · omega

variable {l : DeterministicMNList} {vout : List TxOut}

/-- On a chain the operator's share of no member is more than all, in ten thousandths. -/
theorem ChainList.nOperatorReward_le {env : Env} (hinj : Function.Injective env.serializeHash)
    {txs} {nHeight} (hl : ChainList env txs nHeight l) :
    ∀ dmn ∈ l.members, dmn.nOperatorReward ≤ 10000 := by
  obtain ⟨hwf, hrewards⟩ := hl.forall_members (Q := fun d => d.nOperatorReward ≤ 10000) hinj
    (fun hsame hd => hsame.nOperatorReward ▸ hd)
    (fun _ hpass htype hpl => (proReg_checked hpass htype hpl).operatorReward) fun _ _ hd => hd
  exact fun dmn hdmn => hrewards _ _ (hwf.mem_members.mp hdmn)

section
variable {params : NetworkParams} {st : PaymentsState} {h : Int}

variable {outs : List TxOut}

/-- The payments are not negative and add up to the share of the masternodes. -/
theorem getMasternodeTxOuts_total (houts : getMasternodeTxOuts params st h = some outs) :
    (∀ o ∈ outs, 0 ≤ o.nValue) ∧ totalValue outs = params.masternodeReward h := by
  have hreward := (params.masternodeReward_range h).1
  unfold getMasternodeTxOuts at houts
  split_ifs at houts with hobsolete
  · obtain ⟨dmn, hdmn, rfl⟩ := map_eq_some_iff.mp houts
    have hmem := (mem_filter.mp (DeterministicMNList.getMNPayee_mem hdmn)).1
    have hop := operatorReward_range hreward (st.nOperatorReward_le dmn hmem)
    dsimp only
    constructor
    · intro o ho
      have hone : ∀ {v : Int} {s}, o ∈ (if 0 < v then [⟨v, s⟩] else []) → 0 ≤ o.nValue := by
        intro v s ho
        split_ifs at ho with hpos
        · obtain rfl := mem_singleton.mp ho
          exact hpos.le
        · simp at ho
      exact (mem_append.mp ho).elim hone hone
    · rw [totalValue_append]
      split_ifs <;> simp <;> omega
  · obtain ⟨payee, -, rfl⟩ := map_eq_some_iff.mp houts
    simpa using hreward

/-- The loop of `GetPayee`: nobody has more votes than the payee that is left. -/
theorem best_votes (l : List MasternodePayee) (best : Option Script × Int) :
    let r := l.foldl (fun (best : Option Script × Int) payee =>
      if best.2 < payee.nVotes then (some payee.scriptPubKey, payee.nVotes) else best) best
    best.2 ≤ r.2 ∧ (∀ q ∈ l, q.nVotes ≤ r.2) ∧
      (r = best ∨ ∃ c ∈ l, r = (some c.scriptPubKey, c.nVotes)) := by
  induction l generalizing best with
  | nil => simp
  | cons c l ih =>
    simp only [foldl_cons, forall_mem_cons, exists_mem_cons_iff]
    split_ifs with hlt
    · obtain ⟨hle, hall, hfrom⟩ := ih (some c.scriptPubKey, c.nVotes)
      exact ⟨hlt.le.trans hle, ⟨hle, hall⟩, .inr hfrom⟩
    · obtain ⟨hle, hall, hfrom⟩ := ih best
      exact ⟨hle, ⟨(not_lt.mp hlt).trans hle, hall⟩, hfrom.imp_right .inr⟩

/-- A payee with the most votes, if one has votes at all. -/
theorem getPayee_most {p : MasternodeBlockPayees} {q : MasternodePayee} (hq : q ∈ p.vecPayments)
    (hvotes : -1 < q.nVotes) :
    ∃ r ∈ p.vecPayments, p.getPayee = some r.scriptPubKey ∧ q.nVotes ≤ r.nVotes := by
  obtain ⟨-, hall, hfrom⟩ := best_votes p.vecPayments (none, -1)
  have hle := hall q hq
  unfold MasternodeBlockPayees.getPayee
  rcases hfrom with heq | ⟨r, hr, heq⟩
  · rw [heq] at hle
    exact absurd hle (not_le.mpr hvotes)
  · rw [heq] at hle ⊢
    exact ⟨r, hr, rfl, hle⟩

/-- Outputs with the payments to the masternode pass the check of them. -/
theorem masternodePaid_of_outs
    (houts : ∀ outs, getMasternodeTxOuts params st h = some outs → ∀ o ∈ outs, o ∈ vout) :
    masternodePaid params st h vout = true := by
  unfold masternodePaid
  cases hobsolete : st.legacyMNObsolete h with
  | true =>
    simp only [if_true]
    cases hget : getMasternodeTxOuts params st h with
    | none => rfl
    | some outs => simpa using houts outs hget
  | false =>
    simp only [Bool.false_eq_true, if_false]
    cases hblock : st.mapMasternodeBlocks.blocks[h]? with
    | none => rfl
    | some payees =>
      show payees.isTransactionValid params vout = true
      dsimp only [MasternodeBlockPayees.isTransactionValid]
      rw [Bool.or_eq_true_iff]
      by_cases hvoted : (payees.vecPayments.filter fun payee =>
          decide (mnPaymentsSignaturesRequired ≤ payee.nVotes)) = []
      · exact .inl (by rw [hvoted]; rfl)
      · -- the payee with the most votes is voted for often enough, and is the one that is paid
        obtain ⟨q, hq⟩ := exists_mem_of_ne_nil _ hvoted
        rw [mem_filter, decide_eq_true_eq] at hq
        have hsix : mnPaymentsSignaturesRequired = 6 := rfl
        obtain ⟨r, hr, hpayee, hle⟩ := getPayee_most hq.1 (by omega)
        have hmade : getMasternodeTxOuts params st h =
            some [⟨params.masternodeReward h, r.scriptPubKey⟩] := by
          simp [getMasternodeTxOuts, hobsolete, getLegacyMasternodeTxOut, hblock, hpayee]
        have hmem := houts _ hmade _ (mem_singleton.mpr rfl)
        refine .inr (any_eq_true.mpr ⟨r, ?_, any_eq_true.mpr ⟨_, hmem, ?_⟩⟩)
        · rw [mem_filter, decide_eq_true_eq]
          exact ⟨hr, by omega⟩
        · simp [st.mapMasternodeBlocks.height hblock]

/-! ### Blocks that the node makes -/

/-- The budget payment of a superblock. -/
def duePayment (st : PaymentsState) (h : Int) : Option (Script × Int) :=
  if st.spork13 then st.budgetman.getPayeeAndAmount h else none

/-- The amount of the budget payment, or zero. -/
def budgetAmount (st : PaymentsState) (h : Int) : Int :=
  match duePayment st h with
  | some (_, nAmount) => nAmount
  | none => 0

theorem duePayment_of_not_isSuperblock (hsuper : isSuperblock st h = false) :
    duePayment st h = none := by
  unfold isSuperblock at hsuper
  unfold duePayment
  cases h13 : st.spork13 with
  | false => rfl
  | true =>
    rw [h13, Bool.true_and] at hsuper
    simp [BudgetManager.getPayeeAndAmount, hsuper]

theorem duePayment_of_isSuperblock (hsuper : isSuperblock st h = true) :
    ∃ b p, st.budgetman.getBudgetWithHighestVoteCount h = some b ∧
      b.vecBudgetPayments[(h - b.nBlockStart).toNat]? = some p ∧
      duePayment st h = some (p.payee, p.nAmount) := by
  obtain ⟨h13, hblock⟩ := Bool.and_eq_true_iff.mp hsuper
  obtain ⟨b, p, hb, -, -, hp, -, hpay⟩ := BudgetManager.payment_of_isBudgetPaymentBlock hblock
  exact ⟨b, p, hb, hp, by simp [duePayment, h13, hpay]⟩

/-- The outputs of a new block: in proof-of-stake from the outputs of the staker, in
proof-of-work from the script of the miner and the fees. -/
def makePayouts (params : NetworkParams) (st : PaymentsState) (h : Int) (fProofOfStake : Bool)
    (coinstake : List TxOut) (scriptPubKey : Script) (nFees : Int) : Outcome Payouts :=
  if fProofOfStake then solveProofOfStake params st h coinstake
  else createCoinbaseTx params st h scriptPubKey nFees

/-- A block that the node makes on top of a chain. -/
structure MadeBlock (params : NetworkParams) (st : PaymentsState) where
  nHeight : Int
  nHeight_pos : 1 ≤ nHeight
  hash : Uint256
  /-- The outputs of the staker: the empty marker and the stake with the block value. -/
  staked : List TxOut
  two_le_staked : 2 ≤ staked.length
  nValueIn : Int
  staked_total : totalValue staked = nValueIn + params.getBlockValue nHeight
  scriptPubKey : Script
  nFees : Int
  nFees_nonneg : 0 ≤ nFees
  txs : Payouts
  made : makePayouts params st nHeight (networkUpgradeActive nHeight params.upgradePoS) staked
    scriptPubKey nFees = .ok txs
  coinbase : Transaction
  isCoinBase : coinbase.isCoinBase = true
  transparent : coinbase.sapData = none
  coinbase_vout : coinbase.vout = txs.coinbase
  coinstake : Transaction
  coinstake_vout : coinstake.vout = txs.coinstake
  /-- The transactions from the pool. -/
  rest : List Transaction

namespace MadeBlock

variable (B : MadeBlock params st)

/-- The kind of block that the height asks for. -/
def isProofOfStake : Bool := networkUpgradeActive B.nHeight params.upgradePoS

/-- Whether the payments are made in the coinbase of a proof-of-stake block. -/
def isV6 : Bool := networkUpgradeActive B.nHeight params.upgradeV6_0

def vtx : List Transaction :=
  if B.isProofOfStake then B.coinbase :: B.coinstake :: B.rest else B.coinbase :: B.rest

/-- What the block mints: the fees of the other transactions cancel out. -/
def nMint : Int :=
  if B.isProofOfStake then
    totalValue B.coinbase.vout + (totalValue B.coinstake.vout - B.nValueIn)
  else totalValue B.coinbase.vout

/-- The outputs that the payee is looked for in. -/
def paidVout : List TxOut :=
  if B.isProofOfStake && !B.isV6 then B.coinstake.vout else B.coinbase.vout

theorem paidOutputs_vtx : paidOutputs params B.nHeight B.vtx = .ok B.paidVout := by
  unfold paidOutputs vtx paidVout isProofOfStake isV6
  cases networkUpgradeActive B.nHeight params.upgradePoS <;>
    cases networkUpgradeActive B.nHeight params.upgradeV6_0 <;> rfl

/-- The outputs that the payee is looked for in, when the budget is paid. -/
def budgetVout (payment : TxOut) : List TxOut :=
  if B.isProofOfStake then if B.isV6 then [payment] else B.staked ++ [payment]
  else [⟨params.getBlockValue B.nHeight + B.nFees, B.scriptPubKey⟩, payment]

/-- What the coinbase of a proof-of-stake block pays in all. -/
def coinbaseAmount : Int :=
  match duePayment st B.nHeight with
  | some (_, nAmount) => nAmount
  | none =>
    if (getMasternodeTxOuts params st B.nHeight).isSome then params.masternodeReward B.nHeight
    else 0

/-- The outputs of a made block, by who is paid. -/
structure Outputs : Prop where
  minted : B.nMint = params.getBlockValue B.nHeight +
    (if B.isProofOfStake then 0 else B.nFees) + budgetAmount st B.nHeight
  budget : ∀ payee nAmount, duePayment st B.nHeight = some (payee, nAmount) →
    B.paidVout = B.budgetVout ⟨nAmount, payee⟩ ∧
      (B.isProofOfStake = true → B.isV6 = true → B.coinbase.vout = [⟨nAmount, payee⟩])
  masternode : duePayment st B.nHeight = none → ∀ outs,
    getMasternodeTxOuts params st B.nHeight = some outs → (∀ o ∈ outs, o ∈ B.paidVout) ∧
      (B.isProofOfStake = true → B.isV6 = true → B.coinbase.vout = outs)
  nobody : duePayment st B.nHeight = none → getMasternodeTxOuts params st B.nHeight = none →
    B.isProofOfStake = true → B.isV6 = true → B.coinbase.vout = [⟨0, []⟩]

end MadeBlock

/-- With a budget payment to make, nobody else is paid. -/
theorem fillBlockPayee_budget {payee} {nAmount : Int} (hpos : 1 ≤ h)
    (hdue : duePayment st h = some (payee, nAmount)) (fProofOfStake : Bool) (txs : Payouts) :
    fillBlockPayee params st h fProofOfStake txs = .ok (if fProofOfStake then
        if networkUpgradeActive h params.upgradeV6_0 then
          { txs with coinbase := [⟨nAmount, payee⟩] }
        else { txs with coinstake := txs.coinstake ++ [⟨nAmount, payee⟩] }
      else
        { txs with
          coinbase := (txs.coinbase.take 1).map
            (fun out => { out with nValue := params.getBlockValue h }) ++ [⟨nAmount, payee⟩] }) := by
  have hnot : ¬ h ≤ 0 := by omega
  unfold duePayment at hdue
  split_ifs at hdue with h13
  simp only [fillBlockPayee, h13, if_true, fillBudgetPayee, hnot, if_false, hdue, map_some]
  cases fProofOfStake <;> cases networkUpgradeActive h params.upgradeV6_0 <;> rfl

theorem fillBlockPayee_masternode (hdue : duePayment st h = none) (fProofOfStake : Bool)
    (txs : Payouts) : fillBlockPayee params st h fProofOfStake txs =
      fillMasternodePayee params st h fProofOfStake txs := by
  unfold duePayment at hdue
  unfold fillBlockPayee
  split_ifs at hdue ⊢ with h13
  · have hnone : fillBudgetPayee params st h fProofOfStake txs = none := by
      simp [fillBudgetPayee, hdue]
    rw [hnone]
  · rfl

/-- Proof-of-stake, with a masternode to pay: the payments are made in the coinbase or in the
coinstake, and the stake pays for them. -/
theorem solveProofOfStake_masternode {staked} (hlen : 2 ≤ staked.length)
    (hdue : duePayment st h = none) (houts : getMasternodeTxOuts params st h = some outs) :
    ∃ coinstake, solveProofOfStake params st h staked =
        .ok ⟨if networkUpgradeActive h params.upgradeV6_0 then outs else [⟨0, []⟩], coinstake⟩ ∧
      totalValue coinstake + (if networkUpgradeActive h params.upgradeV6_0 then totalValue outs
        else 0) = totalValue staked ∧
      (networkUpgradeActive h params.upgradeV6_0 = false → ∀ o ∈ outs, o ∈ coinstake) := by
  rw [solveProofOfStake, fillBlockPayee_masternode hdue]
  simp only [fillMasternodePayee, houts, Bool.true_and]
  cases networkUpgradeActive h params.upgradeV6_0 with
  | true =>
    obtain ⟨coinstake, hsub, htotal, -⟩ := subtractMnPaymentFromCoinstake_spec hlen le_rfl
      (outs.map TxOut.nValue).sum
    refine ⟨coinstake, ?_, ?_, by simp⟩
    · simp [hsub]
    · rw [if_pos rfl, htotal]
      unfold totalValue
      omega
  | false =>
    have hle : staked.length ≤ (staked ++ outs).length := by simp
    obtain ⟨coinstake, hsub, htotal, hdrop⟩ := subtractMnPaymentFromCoinstake_spec hlen hle
      (outs.map TxOut.nValue).sum
    refine ⟨coinstake, ?_, ?_, ?_⟩
    · simp [hsub]
    · rw [htotal, totalValue_append]
      simp [totalValue]
    · intro _ o ho
      refine mem_of_mem_drop (i := staked.length) ?_
      rwa [hdrop, drop_left]

/-- Proof-of-work, with a masternode to pay. -/
theorem createCoinbaseTx_masternode (hdue : duePayment st h = none)
    (houts : getMasternodeTxOuts params st h = some outs) (scriptPubKey : Script) (nFees : Int) :
    ∃ nValue, createCoinbaseTx params st h scriptPubKey nFees =
        .ok ⟨⟨nValue, scriptPubKey⟩ :: outs, []⟩ ∧
      nValue + totalValue outs = params.getBlockValue h + nFees := by
  rw [createCoinbaseTx, fillBlockPayee_masternode hdue]
  unfold fillMasternodePayee
  simp only [houts, Bool.false_and, Bool.false_eq_true, if_false, ok_bind, singleton_append,
    modify_zero_cons, length_cons]
  cases outs with
  | nil =>
    refine ⟨params.getBlockValue h + nFees, ?_, by simp⟩
    simp
  | cons o outs =>
    refine ⟨params.getBlockValue h - totalValue (o :: outs) + nFees, ?_, by omega⟩
    simp [totalValue]

namespace MadeBlock

variable (B : MadeBlock params st)

theorem vout_of_stake (hpos : B.isProofOfStake = true) (txs)
    (hmake : solveProofOfStake params st B.nHeight B.staked = .ok txs) :
    B.coinbase.vout = txs.coinbase ∧ B.coinstake.vout = txs.coinstake := by
  have hmade := B.made
  unfold isProofOfStake at hpos
  rw [hpos] at hmade
  obtain rfl := ok_unique hmade hmake
  exact ⟨B.coinbase_vout, B.coinstake_vout⟩

theorem vout_of_work (hpos : B.isProofOfStake = false) (txs)
    (hmake : createCoinbaseTx params st B.nHeight B.scriptPubKey B.nFees = .ok txs) :
    B.coinbase.vout = txs.coinbase := by
  have hmade := B.made
  unfold isProofOfStake at hpos
  rw [hpos] at hmade
  obtain rfl := ok_unique hmade hmake
  exact B.coinbase_vout

/-- The outputs when the budget is paid. -/
theorem outputs_budget {payee} {nAmount : Int}
    (hdue : duePayment st B.nHeight = some (payee, nAmount)) : B.Outputs := by
  have htotal := B.staked_total
  have hamount : budgetAmount st B.nHeight = nAmount := by simp [budgetAmount, hdue]
  cases hpos : B.isProofOfStake with
  | true =>
    obtain ⟨hcoinbase, hcoinstake⟩ :=
      B.vout_of_stake hpos _ (fillBlockPayee_budget B.nHeight_pos hdue true _)
    rw [if_pos rfl] at hcoinbase hcoinstake
    cases hv6 : B.isV6 with
    | true =>
      rw [show networkUpgradeActive B.nHeight params.upgradeV6_0 = true from hv6,
        if_pos rfl] at hcoinbase hcoinstake
      refine ⟨?_, ?_, by simp [hdue], by simp [hdue]⟩
      · simp only [nMint, hpos, if_true, hcoinbase, hcoinstake, totalValue_cons, totalValue_nil,
          hamount]
        omega
      · rw [hdue]
        rintro _ _ ⟨⟩
        exact ⟨by simp [paidVout, budgetVout, hpos, hv6, hcoinbase], fun _ _ => hcoinbase⟩
    | false =>
      rw [show networkUpgradeActive B.nHeight params.upgradeV6_0 = false from hv6,
        if_neg (by simp)] at hcoinbase hcoinstake
      refine ⟨?_, ?_, by simp [hdue], by simp [hdue]⟩
      · simp only [nMint, hpos, if_true, hcoinbase, hcoinstake, totalValue_cons, totalValue_nil,
          totalValue_append, hamount]
        omega
      · rw [hdue]
        rintro _ _ ⟨⟩
        exact ⟨by simp [paidVout, budgetVout, hpos, hv6, hcoinstake], fun _ h => by simp [hv6] at h⟩
  | false =>
    have hcoinbase := B.vout_of_work hpos
      ⟨[⟨params.getBlockValue B.nHeight + B.nFees, B.scriptPubKey⟩, ⟨nAmount, payee⟩], []⟩
      (by simp [createCoinbaseTx, fillBlockPayee_budget B.nHeight_pos hdue])
    refine ⟨?_, ?_, by simp [hdue], by simp [hdue]⟩
    · simp only [nMint, hpos, Bool.false_eq_true, if_false, hcoinbase, totalValue_cons,
        totalValue_nil, hamount]
      omega
    · rw [hdue]
      rintro _ _ ⟨⟩
      exact ⟨by simp [paidVout, budgetVout, hpos, hcoinbase], fun h => by simp [hpos] at h⟩

/-- The outputs when a masternode is paid. -/
theorem outputs_masternode (hdue : duePayment st B.nHeight = none)
    (houts : getMasternodeTxOuts params st B.nHeight = some outs) : B.Outputs := by
  have htotal := B.staked_total
  have hamount : budgetAmount st B.nHeight = 0 := by simp [budgetAmount, hdue]
  cases hpos : B.isProofOfStake with
  | true =>
    obtain ⟨coinstake, hmake, hstake, hpaid⟩ :=
      solveProofOfStake_masternode B.two_le_staked hdue houts
    obtain ⟨hcoinbase, hcoinstake⟩ := B.vout_of_stake hpos _ hmake
    dsimp only at hcoinbase hcoinstake
    refine ⟨?_, by simp [hdue], ?_, by simp [houts]⟩
    · simp only [nMint, hpos, if_true, hcoinstake, hcoinbase, hamount]
      split_ifs at hstake ⊢ <;> simp <;> omega
    · rw [houts]
      rintro _ _ ⟨⟩
      cases hv6 : B.isV6 with
      | true =>
        rw [show networkUpgradeActive B.nHeight params.upgradeV6_0 = true from hv6,
          if_pos rfl] at hcoinbase
        exact ⟨fun o ho => by simpa [paidVout, hpos, hv6, hcoinbase] using ho, fun _ _ => hcoinbase⟩
      | false =>
        refine ⟨fun o ho => ?_, fun _ h => by simp at h⟩
        simpa [paidVout, hpos, hv6, hcoinstake] using hpaid hv6 o ho
  | false =>
    obtain ⟨nValue, hmake, hvalue⟩ :=
      createCoinbaseTx_masternode hdue houts B.scriptPubKey B.nFees
    have hcoinbase : B.coinbase.vout = ⟨nValue, B.scriptPubKey⟩ :: outs := B.vout_of_work hpos _ hmake
    refine ⟨?_, by simp [hdue], ?_, by simp [houts]⟩
    · simp only [nMint, hpos, Bool.false_eq_true, if_false, hcoinbase, totalValue_cons, hamount]
      omega
    · rw [houts]
      rintro _ _ ⟨⟩
      refine ⟨fun o ho => ?_, fun h => by simp [hpos] at h⟩
      simp [paidVout, hpos, hcoinbase, ho]

/-- The outputs when nobody is paid. -/
theorem outputs_nobody (hdue : duePayment st B.nHeight = none)
    (houts : getMasternodeTxOuts params st B.nHeight = none) : B.Outputs := by
  have htotal := B.staked_total
  have hamount : budgetAmount st B.nHeight = 0 := by simp [budgetAmount, hdue]
  cases hpos : B.isProofOfStake with
  | true =>
    obtain ⟨hcoinbase, hcoinstake⟩ := B.vout_of_stake hpos ⟨[⟨0, []⟩], B.staked⟩
      (by simp [solveProofOfStake, fillBlockPayee_masternode hdue, fillMasternodePayee, houts])
    refine ⟨?_, by simp [hdue], by simp [houts], fun _ _ _ _ => hcoinbase⟩
    · simp only [nMint, hpos, if_true, hcoinbase, hcoinstake, totalValue_cons, totalValue_nil,
        hamount]
      omega
  | false =>
    have hcoinbase := B.vout_of_work hpos
      ⟨[⟨params.getBlockValue B.nHeight + B.nFees, B.scriptPubKey⟩], []⟩
      (by simp [createCoinbaseTx, fillBlockPayee_masternode hdue, fillMasternodePayee, houts])
    refine ⟨?_, by simp [hdue], by simp [houts], by simp [hpos]⟩
    · simp only [nMint, hpos, Bool.false_eq_true, if_false, hcoinbase, totalValue_cons,
        totalValue_nil, hamount]

/-- **What a made block pays.** -/
theorem outputs : B.Outputs := by
  cases hdue : duePayment st B.nHeight with
  | some payment => exact B.outputs_budget hdue
  | none =>
    cases houts : getMasternodeTxOuts params st B.nHeight with
    | some outs => exact B.outputs_masternode hdue houts
    | none => exact B.outputs_nobody hdue houts

/-- The payee that the checks look for, when the budget is not due, is paid. -/
theorem masternodePaid (hdue : duePayment st B.nHeight = none) :
    KmushiCoin.masternodePaid params st B.nHeight B.paidVout = true :=
  masternodePaid_of_outs fun outs houts => (B.outputs.masternode hdue outs houts).1

end MadeBlock

/-! ### The checks of a made block -/

/-- The checks pass one by one. -/
theorem checkBlockPayments_ok_iff {fInitialBlockDownload isPoSBlock} {nBlockHash}
    {coinbase} {vtx} {nFees nMint : Int} {g} :
    ((checkBlockPayments params st fInitialBlockDownload isPoSBlock nBlockHash (coinbase :: vtx) h
        nFees nMint).exec g).1 = .ok () ↔ (isBlockValueValid params st h
        (params.getBlockValue h + if isPoSBlock then 0 else nFees) nMint).1 = true ∧
      (fInitialBlockDownload = false →
        ((isBlockPayeeValid params st nBlockHash (coinbase :: vtx) h).exec g).1 = .ok true) ∧
      (isPoSBlock = true → networkUpgradeActive h params.upgradeV6_0 = true →
        coinbaseVerdict st coinbase (isBlockValueValid params st h
            (params.getBlockValue h + if isPoSBlock then 0 else nFees) nMint).2
          (params.masternodeReward (if fInitialBlockDownload then g.nHeight_val
            else ((isBlockPayeeValid params st nBlockHash (coinbase :: vtx) h).exec g).2.nHeight_val))
            = .ok ()) := by
  dsimp only [checkBlockPayments]
  rcases isBlockValueValid params st h
    (params.getBlockValue h + if isPoSBlock then 0 else nFees) nMint with ⟨_ | _, nBudgetAmt⟩
  · simp [exec_bind, rejectIf]
  · -- what is left after the payee was checked
    have hlast : ∀ g : PaymentGlobals,
        ((onlyWhen (isPoSBlock && networkUpgradeActive h params.upgradeV6_0)
          (isCoinbaseValueValid params st coinbase nBudgetAmt)).exec g).1 = .ok () ↔
        (isPoSBlock = true → networkUpgradeActive h params.upgradeV6_0 = true →
          coinbaseVerdict st coinbase nBudgetAmt (params.masternodeReward g.nHeight_val) =
            .ok ()) := by
      intro g
      cases isPoSBlock <;> cases networkUpgradeActive h params.upgradeV6_0 <;>
        simp [onlyWhen, exec_isCoinbaseValueValid]
    simp only [exec_bind, exec_ofExcept, rejectIf, Bool.not_true, Bool.false_eq_true,
      if_false, true_and]
    cases fInitialBlockDownload with
    | true =>
      simp only [onlyWhen, Bool.not_true, Bool.false_eq_true, if_false, exec_pure,
        if_true, false_implies, true_and, Bool.true_eq_false]
      exact hlast g
    | false =>
      simp only [onlyWhen, Bool.not_false, if_true, exec_bind, exec_ofExcept,
        Bool.false_eq_true, if_false, true_implies]
      rcases (isBlockPayeeValid params st nBlockHash (coinbase :: vtx) h).exec g with
        ⟨f | valid, g'⟩
      · simp
      · cases valid with
        | false => simp
        | true =>
          simp only [Bool.not_true, Bool.false_eq_true, if_false, true_and]
          exact hlast g'

/-- With budget data, the amount due may be minted as well. -/
theorem isBlockValueValid_synced (hsynced : st.isSynced = true) (nExpectedValue nMinted : Int) :
    isBlockValueValid params st h nExpectedValue nMinted =
      ((!networkUpgradeActive h params.upgradeV5_3 || decide (0 ≤ nMinted)) &&
        decide (nMinted ≤ nExpectedValue + budgetAmount st h), budgetAmount st h) := by
  have hbudget : budgetAmount st h =
      match (if st.spork13 then st.budgetman.getPayeeAndAmount h else none) with
      | some (_, nAmount) => nAmount
      | none => 0 := rfl
  rw [isBlockValueValid, hbudget, hsynced]
  cases (if st.spork13 then st.budgetman.getPayeeAndAmount h else none) with
  | none => simp
  | some payment => rfl

namespace MadeBlock

variable (B : MadeBlock params st)

/-- The amount minted is allowed: not negative after the upgrade that says so, and without budget
data at most the whole budget in the blocks of a payment cycle. -/
def MintAllowed : Prop :=
  (st.isSynced = false ∧ B.nHeight.tmod params.nBudgetCycleBlocks < 100 ∧ params.isTestnet = true) ∨
    ((networkUpgradeActive B.nHeight params.upgradeV5_3 = true →
        0 ≤ params.getBlockValue B.nHeight + (if B.isProofOfStake then 0 else B.nFees) +
          budgetAmount st B.nHeight) ∧
      (st.isSynced = false → budgetAmount st B.nHeight ≤
        if B.nHeight.tmod params.nBudgetCycleBlocks < 100 then params.getTotalBudget B.nHeight
        else 0))

/-- Another block of the active chain is on record for the proposal that is due. -/
def OnRecord (g : PaymentGlobals) : Prop :=
  ∃ b p, st.budgetman.getBudgetWithHighestVoteCount B.nHeight = some b ∧
    b.vecBudgetPayments[(B.nHeight - b.nBlockStart).toNat]? = some p ∧
    ∃ x k, g.history[p.nProposalHash]? = some (x, k) ∧ b.nBlockStart ≤ k ∧ k ≤ b.getBlockEnd ∧
      x ≠ B.hash ∧ (st.activeHeight x).isSome = true

open Classical in
/-- The height whose masternode payment the coinbase is compared with. -/
noncomputable def comparedHeight (fInitialBlockDownload : Bool) (g : PaymentGlobals) : Int :=
  if fInitialBlockDownload = true ∨ ((duePayment st B.nHeight).isSome = true ∧ ¬ B.OnRecord g) then
    g.nHeight_val
  else checkedHeight st B.nHeight g.nHeight_val

/-- When the node accepts its own block. -/
structure Payable (fInitialBlockDownload : Bool) (g : PaymentGlobals) : Prop where
  mint : B.MintAllowed
  /-- A budget payment is made although the proposal counts as paid: then nothing may be
  enforced that the outputs do not have. -/
  payee : fInitialBlockDownload = false → st.isSynced = true → B.OnRecord g →
    ∀ payee nAmount, duePayment st B.nHeight = some (payee, nAmount) →
      st.spork9 = false ∧ (st.spork8 = false ∨
        KmushiCoin.masternodePaid params st B.nHeight (B.budgetVout ⟨nAmount, payee⟩) = true)
  /-- The coinbase of a proof-of-stake block is compared with the payment of a height. -/
  coinbase : B.isProofOfStake = true → B.isV6 = true → st.isSynced = true →
    0 < budgetAmount st B.nHeight ∨
      (0 ≤ B.coinbaseAmount ∧ amountAccepted st B.coinbaseAmount
        (params.masternodeReward (B.comparedHeight fInitialBlockDownload g)) = true)

/-- **Nothing is lost or gained**: the outputs of a proof-of-stake block are worth the stake and
the budget payment. -/
def Conserved : Prop :=
  B.isProofOfStake = true → totalValue B.coinbase.vout + totalValue B.coinstake.vout =
    totalValue B.staked + budgetAmount st B.nHeight

theorem conserved : B.Conserved := by
  intro hpos
  have hminted := B.outputs.minted
  have htotal := B.staked_total
  simp only [nMint, hpos, if_true] at hminted
  omega

theorem isBlockValueValid_iff : (isBlockValueValid params st B.nHeight
      (params.getBlockValue B.nHeight + if B.isProofOfStake then 0 else B.nFees) B.nMint).1 = true ↔
      B.MintAllowed := by
  have hminted := B.outputs.minted
  have hvalue := (params.getBlockValue_range B.nHeight).1
  have hfees : 0 ≤ (if B.isProofOfStake then 0 else B.nFees) := by
    split_ifs
    · exact le_rfl
    · exact B.nFees_nonneg
  rw [MintAllowed, hminted]
  generalize (if B.isProofOfStake then 0 else B.nFees) = fees at hfees ⊢
  have hupgrade : ∀ (c : Bool) (m e : Int), ((!c || decide (0 ≤ m)) && decide (m ≤ e)) = true ↔
      (c = true → 0 ≤ m) ∧ m ≤ e := by
    intro c m e
    cases c <;> simp
  cases hsynced : st.isSynced with
  | true =>
    rw [isBlockValueValid_synced hsynced, hupgrade]
    simp
  | false =>
    simp only [isBlockValueValid, hsynced, Bool.not_false, if_true]
    split_ifs with hcycle htest
    · simp [hcycle, htest]
    · rw [hupgrade]
      simp only [htest, and_false, false_or, true_implies, Bool.false_eq_true]
      refine and_congr_right fun _ => ?_
      omega
    · rw [hupgrade]
      simp only [hcycle, false_and, and_false, false_or, true_implies]
      refine and_congr_right fun _ => ?_
      omega

/-- The budget payment of a superblock is made, so only the record can refuse it. -/
theorem budgetPaid_iff_not_onRecord (hsuper : isSuperblock st B.nHeight = true)
    (g : PaymentGlobals) :
    budgetPaid st B.hash B.nHeight B.paidVout g.history = true ↔ ¬ B.OnRecord g := by
  obtain ⟨b, p, hb, hp, hdue⟩ := duePayment_of_isSuperblock hsuper
  have hmem : (⟨p.nAmount, p.payee⟩ : TxOut) ∈ B.paidVout := by
    rw [(B.outputs.budget _ _ hdue).1]
    unfold budgetVout
    split_ifs <;> simp
  have hrecord : B.OnRecord g ↔ ∃ x k, g.history[p.nProposalHash]? = some (x, k) ∧
      b.nBlockStart ≤ k ∧ k ≤ b.getBlockEnd ∧ x ≠ B.hash ∧ (st.activeHeight x).isSome = true := by
    constructor
    · intro ⟨b', p', hb', hp', hrec⟩
      obtain rfl := mem_unique hb hb'
      obtain rfl := mem_unique hp hp'
      exact hrec
    · exact fun hrec => ⟨b, p, hb, hp, hrec⟩
  rw [budgetPaid_iff hsuper hb hp, ← hrecord]
  exact and_iff_right hmem

/-- The verdict on the payee, by whether the proposal counts as paid. -/
theorem payee_iff (g : PaymentGlobals) :
    payeeVerdict params st B.hash B.nHeight B.paidVout g.history = true ↔
      (B.OnRecord g → ∀ payee nAmount, duePayment st B.nHeight = some (payee, nAmount) →
        st.spork9 = false ∧ (st.spork8 = false ∨
          KmushiCoin.masternodePaid params st B.nHeight (B.budgetVout ⟨nAmount, payee⟩) =
            true)) := by
  unfold payeeVerdict
  cases hsuper : isSuperblock st B.nHeight with
  | false =>
    have hdue := duePayment_of_not_isSuperblock hsuper
    simp [payeeFallback, hsuper, B.masternodePaid hdue, hdue]
  | true =>
    obtain ⟨b, p, -, -, hdue⟩ := duePayment_of_isSuperblock hsuper
    have hvout := (B.outputs.budget _ _ hdue).1
    have hfallback : payeeFallback params st B.nHeight B.paidVout = true ↔
        st.spork9 = false ∧ (st.spork8 = false ∨ KmushiCoin.masternodePaid params st B.nHeight
          (B.budgetVout ⟨p.nAmount, p.payee⟩) = true) := by
      rw [hvout]
      simp [payeeFallback, hsuper, or_comm]
    rw [Bool.or_eq_true_iff, B.budgetPaid_iff_not_onRecord hsuper, hfallback]
    constructor
    · intro hpass hrec payee nAmount hdue'
      obtain ⟨rfl, rfl⟩ := Prod.mk.inj (mem_unique hdue hdue')
      rcases hpass with hnot | hpass
      · exact absurd hrec hnot
      · exact hpass
    · intro hpass
      by_cases hrec : B.OnRecord g
      · exact .inr (hpass hrec p.payee p.nAmount hdue)
      · exact .inl hrec

/-- The height left by an accepted check of the payee. -/
theorem afterPayee_height {g}
    (hpass : payeeVerdict params st B.hash B.nHeight B.paidVout g.history = true) :
    (g.afterPayee st B.hash B.nHeight B.paidVout).nHeight_val = B.comparedHeight false g := by
  dsimp only [PaymentGlobals.afterPayee, comparedHeight]
  cases hsuper : isSuperblock st B.nHeight with
  | false =>
    have hdue := duePayment_of_not_isSuperblock hsuper
    simp [budgetPaid, hsuper, hdue]
  | true =>
    obtain ⟨b, p, -, -, hdue⟩ := duePayment_of_isSuperblock hsuper
    by_cases hrec : B.OnRecord g
    · have h9 := ((B.payee_iff g).mp hpass hrec _ _ hdue).1
      have hrefused : budgetPaid st B.hash B.nHeight B.paidVout g.history = false := by
        rw [Bool.eq_false_iff]
        exact fun hpaid => (B.budgetPaid_iff_not_onRecord hsuper g).mp hpaid hrec
      simp [hrec, h9, hrefused]
    · simp [hrec, hdue, (B.budgetPaid_iff_not_onRecord hsuper g).mpr hrec]

/-- The amount of the coinbase. -/
theorem getValueOut_coinbase (hpos : B.isProofOfStake = true) (hv6 : B.isV6 = true) :
    (0 ≤ B.coinbaseAmount → B.coinbase.getValueOut = .ok B.coinbaseAmount) ∧
      (B.coinbaseAmount < 0 → ∃ f, B.coinbase.getValueOut = .error f) := by
  have hsum : B.coinbase.getValueOut = B.coinbase.vout.foldlM addValueOut 0 := by
    unfold Transaction.getValueOut
    rw [B.transparent]
    cases B.coinbase.vout.foldlM addValueOut 0 <;> rfl
  rw [hsum]
  unfold coinbaseAmount
  cases hsuper : isSuperblock st B.nHeight with
  | true =>
    obtain ⟨b, p, -, -, hdue⟩ := duePayment_of_isSuperblock hsuper
    rw [hdue, (B.outputs.budget _ _ hdue).2 hpos hv6]
    dsimp only
    constructor
    · intro hnonneg
      have hlt := p.nAmount_lt
      rw [foldlM_addValueOut (by simpa using hnonneg) le_rfl (by simpa using hlt)]
      simp
    · intro hneg
      refine ⟨.throw "CTransaction::GetValueOut() : value out of range : less than 0", ?_⟩
      simp [addValueOut, throwIf, hneg, bind, Except.bind]
  | false =>
    have hdue := duePayment_of_not_isSuperblock hsuper
    rw [hdue]
    dsimp only
    cases houts : getMasternodeTxOuts params st B.nHeight with
    | some outs =>
      rw [(B.outputs.masternode hdue outs houts).2 hpos hv6]
      obtain ⟨hnonneg, htotal⟩ := getMasternodeTxOuts_total houts
      have hreward := params.masternodeReward_range B.nHeight
      have hvalue := (params.getBlockValue_range B.nHeight).2
      have hcoin : COIN = 100000000 := rfl
      simp only [isSome_some, if_true]
      refine ⟨fun _ => ?_, fun hneg => by omega⟩
      rw [foldlM_addValueOut hnonneg le_rfl (by omega), htotal, Int.zero_add]
    | none =>
      rw [B.outputs.nobody hdue houts hpos hv6]
      simp only [isSome_none, Bool.false_eq_true, if_false]
      exact ⟨fun _ => rfl, fun hneg => by omega⟩

/-- The verdict on the coinbase of a made block. -/
theorem coinbaseVerdict_iff (hpos : B.isProofOfStake = true) (hv6 : B.isV6 = true)
    (hsynced : st.isSynced = true) (r : Int) :
    coinbaseVerdict st B.coinbase (budgetAmount st B.nHeight) r = .ok () ↔
      0 < budgetAmount st B.nHeight ∨
        (0 ≤ B.coinbaseAmount ∧ amountAccepted st B.coinbaseAmount r = true) := by
  obtain ⟨hok, herror⟩ := B.getValueOut_coinbase hpos hv6
  have hassert : assert B.coinbase.isCoinBase "tx->IsCoinBase()" = .ok () := by
    simp [B.isCoinBase]
  rw [coinbaseVerdict, hassert, ok_bind, hsynced, if_pos rfl]
  by_cases hbudget : 0 < budgetAmount st B.nHeight
  · -- a superblock pays exactly the budget payment
    have hamount : B.coinbaseAmount = budgetAmount st B.nHeight := by
      unfold coinbaseAmount
      unfold budgetAmount at hbudget ⊢
      cases hdue : duePayment st B.nHeight with
      | none => simp [hdue] at hbudget
      | some payment => rfl
    rw [hok (by omega), ok_bind, if_pos hbudget, hamount]
    simp [hbudget]
  · simp only [hbudget, if_false, false_or]
    by_cases hnonneg : 0 ≤ B.coinbaseAmount
    · rw [hok hnonneg, ok_bind]
      simp [hnonneg]
    · obtain ⟨f, hf⟩ := herror (by omega)
      rw [hf]
      simp [hnonneg, bind, Except.bind]

/-- **When a node accepts the block that it makes.** The stake always pays exactly for the
payments; the checks pass exactly if the block is payable. -/
theorem accepted_iff (fInitialBlockDownload : Bool) (g : PaymentGlobals) :
    (((checkBlockPayments params st fInitialBlockDownload B.isProofOfStake B.hash B.vtx B.nHeight
        B.nFees B.nMint).exec g).1 = .ok () ∧ B.Conserved) ↔ B.Payable fInitialBlockDownload g := by
  have hvtx : ∃ rest, B.vtx = B.coinbase :: rest := by
    unfold vtx
    split_ifs <;> exact ⟨_, rfl⟩
  obtain ⟨rest, hvtx⟩ := hvtx
  have hvout := B.paidOutputs_vtx
  rw [and_iff_left B.conserved]
  rw [hvtx] at hvout ⊢
  rw [checkBlockPayments_ok_iff, B.isBlockValueValid_iff]
  cases hsynced : st.isSynced with
  | false =>
    constructor
    · intro hok
      exact ⟨hok.1, by simp [hsynced], by simp [hsynced]⟩
    · intro hpayable
      refine ⟨hpayable.mint, ?_, ?_⟩
      · simp [isBlockPayeeValid, hsynced]
      · simp [coinbaseVerdict, hsynced, B.isCoinBase, assert]
  | true =>
    rw [exec_isBlockPayeeValid hsynced hvout, isBlockValueValid_synced hsynced]
    dsimp only
    -- an accepted payee leaves the compared height
    have hheight : (fInitialBlockDownload = false →
          payeeVerdict params st B.hash B.nHeight B.paidVout g.history = true) →
        (if fInitialBlockDownload then g.nHeight_val
          else (g.afterPayee st B.hash B.nHeight B.paidVout).nHeight_val) =
          B.comparedHeight fInitialBlockDownload g := by
      intro hpass
      cases fInitialBlockDownload with
      | true => simp [comparedHeight]
      | false => exact B.afterPayee_height (hpass rfl)
    constructor
    · intro hok
      obtain ⟨hmint, hpayee, hcoinbase⟩ := hok
      have hpass : fInitialBlockDownload = false →
          payeeVerdict params st B.hash B.nHeight B.paidVout g.history = true :=
        fun h => Except.ok.inj (hpayee h)
      rw [hheight hpass] at hcoinbase
      exact ⟨hmint, fun h _ => (B.payee_iff g).mp (hpass h), fun hpos hv6 _ =>
        (B.coinbaseVerdict_iff hpos hv6 hsynced _).mp (hcoinbase hpos hv6)⟩
    · intro hpayable
      have hpass : fInitialBlockDownload = false →
          payeeVerdict params st B.hash B.nHeight B.paidVout g.history = true :=
        fun h => (B.payee_iff g).mpr (hpayable.payee h hsynced)
      refine ⟨hpayable.mint, fun h => congrArg Except.ok (hpass h), fun hpos hv6 => ?_⟩
      rw [hheight hpass]
      exact (B.coinbaseVerdict_iff hpos hv6 hsynced _).mpr (hpayable.coinbase hpos hv6 hsynced)

end MadeBlock

end

namespace Sample

/-- A deterministic masternode that shares its payment with its operator. -/
def sharingMN : DeterministicMN where
  proTxHash := 2
  internalId := 0
  collateralOutpoint := ⟨2, 0⟩
  nOperatorReward := 1000
  pdmnState := { nRegisteredHeight := 310, scriptPayout := [1], scriptOperatorPayout := [2] }

def sharingState : PaymentsState :=
  { paymentsState with
    mnList := { mnMap := (∅ : FMap Uint256 DeterministicMN).insert 2 sharingMN }
    nOperatorReward_le := by decide +kernel }

/-- A coinstake with the outputs. -/
def stake (vout : List TxOut) (hlt : vout.length < 2 ^ 32) : Transaction where
  hash := 73
  nVersion := 1
  nType := .normal
  vin := [⟨⟨7, 0⟩, []⟩]
  vout := vout
  sapData := none
  extraPayload := none
  vout_lt := hlt

/-- The block of a staker with 100 coins, in two outputs: the masternode gets 126 and its operator
14 of the 250 coins of the block. -/
def stakedBlock : MadeBlock regtestParams sharingState where
  nHeight := 400
  nHeight_pos := by decide
  hash := 72
  staked := [⟨0, []⟩, ⟨175 * COIN, [3]⟩, ⟨175 * COIN, [3]⟩]
  two_le_staked := by decide
  nValueIn := 100 * COIN
  staked_total := by decide
  scriptPubKey := []
  nFees := 0
  nFees_nonneg := by decide
  txs := ⟨[⟨126 * COIN, [1]⟩, ⟨14 * COIN, [2]⟩], [⟨0, []⟩, ⟨105 * COIN, [3]⟩, ⟨105 * COIN, [3]⟩]⟩
  made := by decide +kernel
  coinbase := { payingCoinbase 0 [] with
    vout := [⟨126 * COIN, [1]⟩, ⟨14 * COIN, [2]⟩], vout_lt := by decide }
  isCoinBase := by decide
  transparent := rfl
  coinbase_vout := rfl
  coinstake := stake [⟨0, []⟩, ⟨105 * COIN, [3]⟩, ⟨105 * COIN, [3]⟩] (by decide)
  coinstake_vout := rfl
  rest := []

end Sample

open Sample

/-- **A node rejects its own block**: it has the payments to the masternode in full, but a process
that never checked a legacy payee expects none. -/
theorem stakedBlock_rejected : ((checkBlockPayments regtestParams sharingState false true
        stakedBlock.hash stakedBlock.vtx stakedBlock.nHeight
        stakedBlock.nFees stakedBlock.nMint).exec {}).1 = .error (.reject "bad-cb-amt") := by
  decide +kernel

/-! ### Every payout its own output -/

section
variable (params : NetworkParams) (st : PaymentsState) (h : Int)

/-- The payouts to the masternode and to its operator differ in amount or script. -/
def PayoutsDiffer : Prop :=
  ∀ dmn, st.mnList.getMNPayee = some dmn →
    0 < operatorReward dmn (params.masternodeReward h) →
    params.masternodeReward h - operatorReward dmn (params.masternodeReward h) =
      operatorReward dmn (params.masternodeReward h) →
    dmn.pdmnState.scriptPayout ≠ dmn.pdmnState.scriptOperatorPayout

variable {params st h}

theorem nodup_masternodeTxOuts_iff (hdet : st.legacyMNObsolete h = true) :
    (∀ outs, getMasternodeTxOuts params st h = some outs → outs.Nodup) ↔
      PayoutsDiffer params st h := by
  unfold getMasternodeTxOuts PayoutsDiffer
  rw [if_pos hdet]
  cases st.mnList.getMNPayee with
  | none => simp
  | some dmn =>
    simp only [map_some, some.injEq, forall_eq']
    by_cases hop : 0 < operatorReward dmn (params.masternodeReward h)
    · by_cases hmn : 0 < params.masternodeReward h -
          operatorReward dmn (params.masternodeReward h)
      · simp only [if_pos hmn, hop, forall_const]
        simp
      · simp only [if_neg hmn, if_pos hop, nil_append, nodup_singleton, true_iff]
        intro _ heq
        omega
    · refine iff_of_true ?_ fun hpos => absurd hpos hop
      rw [if_neg hop, append_nil]
      split_ifs <;> simp

/-- The check looks for every payout by itself. -/
theorem masternodePaid_iff (hdet : st.legacyMNObsolete h = true) :
    masternodePaid params st h vout = true ↔
      ∀ outs, getMasternodeTxOuts params st h = some outs → outs ⊆ vout := by
  rw [masternodePaid, if_pos hdet]
  cases getMasternodeTxOuts params st h with
  | none => simp
  | some outs => simp [subset_def]

/-- **Every payout has an output of its own** in all transactions that the check accepts, exactly
when the payouts to the masternode and to its operator differ. -/
theorem payouts_subperm_iff (params : NetworkParams) (st : PaymentsState) (h : Int)
    (hdet : st.legacyMNObsolete h = true) : (∀ vout outs, masternodePaid params st h vout = true →
      getMasternodeTxOuts params st h = some outs → outs.Subperm vout) ↔
      PayoutsDiffer params st h := by
  rw [← nodup_masternodeTxOuts_iff hdet]
  constructor
  · intro hall outs houts
    -- a transaction that pays every payout once is accepted
    have hpaid : masternodePaid params st h outs.dedup = true := by
      refine (masternodePaid_iff hdet).mpr fun outs' houts' o ho => ?_
      obtain rfl := Option.mem_unique houts houts'
      exact mem_dedup.mpr ho
    have hlength := (hall _ outs hpaid houts).length_le
    rw [← (dedup_sublist outs).eq_of_length_le hlength]
    exact nodup_dedup outs
  · intro hnodup vout outs hpaid houts
    exact (hnodup outs houts).subperm ((masternodePaid_iff hdet).mp hpaid outs houts)

end

namespace Sample

/-- The operator gets half of the payment, on the script of the owner. -/
def halvingMN : DeterministicMN :=
  { sharingMN with
    nOperatorReward := 5000
    pdmnState := {
      nRegisteredHeight := 310
      scriptPayout := p2pkh 1
      scriptOperatorPayout := p2pkh 1 } }

def halvingState : PaymentsState :=
  { paymentsState with
    mnList := { mnMap := (∅ : FMap Uint256 DeterministicMN).insert 2 halvingMN }
    nOperatorReward_le := by decide +kernel }

end Sample

/-- **One output passes for two payouts**, with half of what is due. -/
theorem halvingState_paid_once : halvingState.legacyMNObsolete 400 = true ∧
      getMasternodeTxOuts regtestParams halvingState 400 =
        some [⟨70 * COIN, p2pkh 1⟩, ⟨70 * COIN, p2pkh 1⟩] ∧
      masternodePaid regtestParams halvingState 400 [⟨70 * COIN, p2pkh 1⟩] = true ∧
      ¬ Subperm [⟨70 * COIN, p2pkh 1⟩, ⟨70 * COIN, p2pkh 1⟩] [(⟨70 * COIN, p2pkh 1⟩ : TxOut)] := by
  refine ⟨rfl, by decide +kernel, by decide +kernel, fun hsub => ?_⟩
  exact absurd hsub.length_le (by decide)

/-- With a tenth for the operator, on another script, both have their own output. -/
theorem sharingState_subperm : sharingState.legacyMNObsolete 400 = true ∧
      ∀ vout outs, masternodePaid regtestParams sharingState 400 vout = true →
        getMasternodeTxOuts regtestParams sharingState 400 = some outs → outs.Subperm vout := by
  have hpayee : sharingState.mnList.getMNPayee = some sharingMN := by decide +kernel
  refine ⟨rfl, (payouts_subperm_iff _ _ 400 rfl).mpr fun dmn hdmn _ _ => ?_⟩
  obtain rfl := Option.mem_unique hpayee hdmn
  decide

end KmushiCoin
