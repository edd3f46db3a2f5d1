import KmushiCoin.Evo.ManagerSound
import KmushiCoin.Lib.RoundRobin

/-!
# KmushiCoin.Evo.Payee

**Who is paid next.** The valid masternodes wait in the order of a composite key: the height
at which they were last paid, revived or registered, and their hash.

* `payQueue` is this order; `GetMNPayee` is its head and `GetProjectedMNPayees` its front.
* A block that pays the head gives it the height of the block, which is beyond the keys of all
  the others (`HeightsBelow`), so the queue rotates (`payQueue_build`).
* `payees_rotate`: while no masternode is registered, removed, banned or revived, the payees
  of a run go round the queue.
-/

namespace KmushiCoin

open Codec DeterministicMNList RoundRobin List DeterministicMN

variable {d : DeterministicMN} {p : Uint256} {nHeight : Int32} {s s' s'' : DeterministicMNState}
  {l l' : DeterministicMNList} {vtx : List Transaction}

namespace DeterministicMNList

variable {l l' : DeterministicMNList}

/-! ### The queue -/

def validMNs (l : DeterministicMNList) : List DeterministicMN := l.members.filter isMNValid

def getValidMNsCount (l : DeterministicMNList) : Nat := l.validMNs.length

/-- The valid members by `CompareByLastPaid`. -/
def sortedByLastPaid (l : DeterministicMNList) : List DeterministicMN :=
  l.validMNs.mergeSort fun a b => !compareByLastPaid b a

def getProjectedMNPayees (l : DeterministicMNList) (nCount : Nat) : List DeterministicMN :=
  l.sortedByLastPaid.take (if l.getValidMNsCount < nCount then l.getValidMNsCount else nCount)

/-- The hashes of the valid masternodes in the order in which they are paid. -/
def payQueue (l : DeterministicMNList) : List Uint256 :=
  l.sortedByLastPaid.map proTxHash

def validHashes (l : DeterministicMNList) : List Uint256 := l.validMNs.map proTxHash

/-- The key of a masternode: the height since which it waits, and its hash. -/
def payKey (d : DeterministicMN) : Int ×ₗ Uint256 :=
  toLex ((compareByLastPaidGetHeight d).toInt, d.proTxHash)

theorem compareByLastPaid_eq (a b : DeterministicMN) :
    compareByLastPaid a b = decide (payKey a < payKey b) := by
  unfold compareByLastPaid payKey
  rw [Bool.eq_iff_iff]
  simp only [decide_eq_true_eq, Prod.Lex.toLex_lt_toLex]
  split_ifs with heq
  · simp [heq]
  · have hne : (compareByLastPaidGetHeight a).toInt ≠ (compareByLastPaidGetHeight b).toInt :=
      fun h => heq (Int32.toInt_inj.mp h)
    simp [hne, Int32.lt_iff_toInt_lt]

theorem payKey_hash {a b} (h : payKey a = payKey b) : a.proTxHash = b.proTxHash := by
  have := congrArg (fun k => (ofLex k).2) h
  exact this

theorem mem_sortedByLastPaid : d ∈ l.sortedByLastPaid ↔ d ∈ l.members ∧ isMNValid d = true := by
  unfold sortedByLastPaid validMNs
  rw [mem_mergeSort, mem_filter]

theorem payQueue_perm (l : DeterministicMNList) : l.payQueue.Perm l.validHashes :=
  (mergeSort_perm _ _).map _

theorem sortedByLastPaid_pairwise (l : DeterministicMNList) :
    l.sortedByLastPaid.Pairwise fun a b => payKey a ≤ payKey b := by
  have hsorted : l.sortedByLastPaid.Pairwise fun a b => (!compareByLastPaid b a) = true := by
    refine pairwise_mergeSort ?_ ?_ l.validMNs
    · intro a b c hab hbc
      simp only [compareByLastPaid_eq, Bool.not_eq_true', decide_eq_false_iff_not, not_lt]
        at hab hbc ⊢
      exact hab.trans hbc
    · intro a b
      simp only [compareByLastPaid_eq, Bool.or_eq_true, Bool.not_eq_true', decide_eq_false_iff_not,
        not_lt]
      exact le_total _ _
  exact hsorted.imp fun {a b} h => by simpa [compareByLastPaid_eq] using h

/-- The height since which the member under a hash waits. -/
def waitKey (l : DeterministicMNList) (p : Uint256) : Int ×ₗ Uint256 :=
  toLex ((((l.getMN p).map compareByLastPaidGetHeight).getD 0).toInt, p)

theorem waitKey_eq (hp : d.proTxHash = p) (hd : l.mnMap[p]? = some d) : l.waitKey p = payKey d := by
  simp [waitKey, payKey, getMN, hd, hp]

section
variable {serializeHash : UniqueProperty → Nat}

theorem mem_payQueue (h : Wf serializeHash l) :
    p ∈ l.payQueue ↔ ∃ d, l.mnMap[p]? = some d ∧ isMNValid d = true := by
  rw [payQueue, mem_map]
  constructor
  · rintro ⟨d, hd, rfl⟩
    obtain ⟨hmem, hvalid⟩ := mem_sortedByLastPaid.mp hd
    exact ⟨d, h.mem_members.mp hmem, hvalid⟩
  · intro ⟨d, hd, hvalid⟩
    have hkey := h.key hd
    exact ⟨d, mem_sortedByLastPaid.mpr ⟨h.mem_members.mpr (hkey.symm ▸ hd), hvalid⟩, hkey⟩

theorem length_payQueue : l.payQueue.length = l.getValidMNsCount := by
  simp [payQueue, sortedByLastPaid, getValidMNsCount]

/-- The queue is ordered by the keys. -/
theorem payQueue_ordered (h : Wf serializeHash l) : Ordered l.waitKey l.payQueue := by
  unfold Ordered payQueue
  rw [pairwise_map]
  have hnodup : l.payQueue.Nodup := by
    rw [l.payQueue_perm.nodup_iff]
    exact h.nodup_members.sublist (filter_sublist.map _)
  have hne := pairwise_map.mp hnodup
  refine (l.sortedByLastPaid_pairwise.and hne).imp_of_mem fun {a b} ha hb hab => ?_
  rw [waitKey_eq rfl (h.mem_members.mp (mem_sortedByLastPaid.mp ha).1),
    waitKey_eq rfl (h.mem_members.mp (mem_sortedByLastPaid.mp hb).1)]
  exact lt_of_le_of_ne hab.1 fun heq => hab.2 (payKey_hash heq)

/-- The loop of `GetMNPayee` keeps the least key. -/
theorem best_le (ds : List DeterministicMN) (b : DeterministicMN) : ∃ b', ds.foldl (fun best dmn =>
        match best with
        | none => some dmn
        | some b => if compareByLastPaid dmn b then some dmn else some b) (some b) = some b' ∧
      b' ∈ b :: ds ∧ ∀ d ∈ b :: ds, payKey b' ≤ payKey d := by
  induction ds generalizing b with
  | nil => exact ⟨b, rfl, by simp⟩
  | cons d ds ih =>
    rw [foldl_cons]
    by_cases hlt : compareByLastPaid d b = true
    · obtain ⟨b', hb', hmem, hle⟩ := ih d
      rw [compareByLastPaid_eq, decide_eq_true_eq] at hlt
      refine ⟨b', by simpa [compareByLastPaid_eq, hlt] using hb', by simp [hmem], ?_⟩
      intro e he
      rcases mem_cons.mp he with rfl | he
      · exact (hle d (by simp)).trans hlt.le
      · exact hle e he
    · obtain ⟨b', hb', hmem, hle⟩ := ih b
      have hbd : payKey b ≤ payKey d := by simpa [compareByLastPaid_eq] using hlt
      refine ⟨b', by simpa [hlt] using hb', ?_, ?_⟩
      · rcases mem_cons.mp hmem with rfl | hmem
        · simp
        · simp [hmem]
      · intro e he
        rcases mem_cons.mp he with rfl | he
        · exact hle _ (by simp)
        · rcases mem_cons.mp he with rfl | he
          · exact (hle b (by simp)).trans hbd
          · exact hle e (by simp [he])

/-- **`GetMNPayee` is the head of the queue.** -/
theorem getMNPayee_hash (l : DeterministicMNList) :
    l.getMNPayee.map proTxHash = l.payQueue.head? := by
  rw [payQueue, head?_map]
  cases hvalid : l.validMNs with
  | nil =>
    have hsorted : l.sortedByLastPaid = [] := by simp [sortedByLastPaid, hvalid]
    rw [validMNs] at hvalid
    simp [getMNPayee, hvalid, hsorted]
  | cons v vs =>
    obtain ⟨b, hb, hmem, hle⟩ := best_le vs v
    have hpayee : l.getMNPayee = some b := by
      have hfold := hvalid
      rw [validMNs] at hfold
      rwa [getMNPayee, hfold]
    rw [hpayee]
    rw [← hvalid] at hmem hle
    have hperm : l.sortedByLastPaid.Perm l.validMNs := mergeSort_perm _ _
    cases hsorted : l.sortedByLastPaid with
    | nil =>
      rw [hsorted] at hperm
      simp [hperm.symm.eq_nil] at hvalid
    | cons s ss =>
      have hpair := l.sortedByLastPaid_pairwise
      rw [hsorted] at hpair hperm
      have hs : payKey b ≤ payKey s := hle s (hperm.mem_iff.mp (by simp))
      have hb : payKey s ≤ payKey b := by
        rcases mem_cons.mp (hperm.mem_iff.mpr hmem) with rfl | hmem
        · exact le_rfl
        · exact (pairwise_cons.mp hpair).1 b hmem
      simp [payKey_hash (le_antisymm hs hb)]

/-- **`GetProjectedMNPayees` is the front of the queue.** -/
theorem getProjectedMNPayees_hash (l : DeterministicMNList) {c : Nat}
    (hc : c ≤ l.getValidMNsCount) :
    (l.getProjectedMNPayees c).map proTxHash = l.payQueue.take c := by
  unfold getProjectedMNPayees payQueue
  rw [if_neg (by omega), map_take]

end

end DeterministicMNList

variable {env : Env}

/-! ### The heights that make up the key -/

/-- The heights that make up the key are the same, but for a revival at the height of the block. -/
structure Revived (nHeight : Int32) (s s' : DeterministicMNState) : Prop where
  registered : s'.nRegisteredHeight = s.nRegisteredHeight
  lastPaid : s'.nLastPaidHeight = s.nLastPaidHeight
  revived : s'.nPoSeRevivedHeight = s.nPoSeRevivedHeight ∨ s'.nPoSeRevivedHeight = nHeight

theorem Revived.trans (h : Revived nHeight s s') (h' : Revived nHeight s' s'')
    : Revived nHeight s s'' := by
  refine ⟨h'.registered.trans h.registered, h'.lastPaid.trans h.lastPaid, ?_⟩
  rcases h'.revived with heq | heq
  · rw [heq]
    exact h.revived
  · exact .inr heq

/-- An update changes the key of its masternode at most by a revival. -/
theorem txUpdate_revived {tx} {f : DeterministicMNState → DeterministicMNState}
    (hu : txUpdate nHeight tx = some (p, f)) (s : DeterministicMNState)
    : Revived nHeight s (f s) := by
  have hban : ∀ s : DeterministicMNState, Revived nHeight s (s.banIfNotBanned nHeight) := by
    intro s
    unfold DeterministicMNState.banIfNotBanned
    split_ifs <;> exact ⟨rfl, rfl, .inl rfl⟩
  obtain ⟨pl, -, -, -, rfl⟩ | ⟨pl, -, -, -, rfl⟩ | ⟨pl, -, -, -, rfl⟩ := txUpdate_cases hu
  · dsimp only [ProUpServPL.newState]
    split_ifs
    · exact ⟨rfl, rfl, .inr rfl⟩
    · exact ⟨rfl, rfl, .inl rfl⟩
  · dsimp only [ProUpRegPL.newState]
    split_ifs
    · exact ⟨(hban _).1, (hban _).2, (hban s.resetOperatorFields).3⟩
    · exact ⟨rfl, rfl, .inl rfl⟩
  · exact ⟨(hban _).1, (hban _).2, (hban s.resetOperatorFields).3⟩

section
variable (hinj : Function.Injective env.serializeHash)
include hinj

variable {d' : DeterministicMN} {prev : PrevIndex} {h : Int}

/-- The payment sets the height of the payee and nothing else. -/
theorem payPayee_times {payee} (hwf : Wf env.serializeHash l)
    (hr : payPayee env nHeight payee l = .ok l') (hd' : l'.mnMap[p]? = some d') :
    ∃ d, l.mnMap[p]? = some d ∧ d'.pdmnState.nRegisteredHeight = d.pdmnState.nRegisteredHeight ∧
      d'.pdmnState.nPoSeRevivedHeight = d.pdmnState.nPoSeRevivedHeight ∧
      d'.pdmnState.nLastPaidHeight = if payee.map proTxHash = some p then nHeight
        else d.pdmnState.nLastPaidHeight := by
  cases payee with
  | none =>
    cases hr
    exact ⟨d', hd', rfl, rfl, by simp⟩
  | some payee =>
    unfold payPayee getMN at hr
    cases hget : l.mnMap[payee.proTxHash]? with
    | none =>
      simp only [hget] at hr
      cases hr
      refine ⟨d', hd', rfl, rfl, ?_⟩
      rw [if_neg]
      intro heq
      simp [Option.some.inj heq, hd'] at hget
    | some d =>
      simp only [hget] at hr
      have hu := updateMNByHash_updated hinj hwf hget hr
      rw [hu.mnMap] at hd'
      rcases FMap.of_get_insert hd' with ⟨heq, rfl⟩ | ⟨heq, hd'⟩
      · exact ⟨d, heq ▸ hget, rfl, rfl, by simp [heq]⟩
      · exact ⟨d', hd', rfl, rfl, by simp [heq]⟩

omit hinj in
/-- The heights at first: those of a member of the list before, or of a registration. -/
def Origin (prev : PrevIndex) (vtx : List Transaction) (p : Uint256) (s : DeterministicMNState) :
    Prop :=
  (∃ d, prev.mnList.mnMap[p]? = some d ∧ d.pdmnState = s) ∨
    (∃ tx ∈ vtx.tail, tx.nType = .proReg) ∧ s.nRegisteredHeight = prev.nHeight + 1 ∧
      s.nLastPaidHeight = 0 ∧ s.nPoSeRevivedHeight = -1

/-- **What a block does to the keys**: the payee gets the height of the block, and a masternode may
be revived. -/
theorem build_times (hwf : Wf env.serializeHash prev.mnList)
    (hr : buildNewListFromBlock env vtx prev = .ok l') (hd' : l'.mnMap[p]? = some d') :
    ∃ s, Origin prev vtx p s ∧ d'.pdmnState.nRegisteredHeight = s.nRegisteredHeight ∧
      (d'.pdmnState.nPoSeRevivedHeight = s.nPoSeRevivedHeight ∨
        d'.pdmnState.nPoSeRevivedHeight = prev.nHeight + 1) ∧ d'.pdmnState.nLastPaidHeight =
        if prev.mnList.payQueue.head? = some p then prev.nHeight + 1 else s.nLastPaidHeight := by
  have hinv : BlockInv env prev vtx fun _ _ l => ∀ (p : Uint256) (d' : DeterministicMN),
      l.mnMap[p]? = some d' → ∃ s, Origin prev vtx p s ∧
        Revived (prev.nHeight + 1) s d'.pdmnState := by
    refine ⟨?_, ?_, ?_⟩
    · intro l hquiet p d' hd'
      obtain ⟨d, hd, -, -, -, -, hsame⟩ := hquiet.old hd'
      exact ⟨d.pdmnState, .inl ⟨d, hd, rfl⟩, hsame.nRegisteredHeight, hsame.nLastPaidHeight rfl,
        .inl hsame.nPoSeRevivedHeight⟩
    · intro pre tx post l l' hsplit hwfl hpre hstep p d' hd'
      rcases applyTx_cases hinj hwfl hstep with ⟨htype, pl, l₁, -, hregd⟩ | ⟨-, q, f, e, hu, hupd⟩ |
        ⟨-, -, rfl⟩
      · rw [hregd.mnMap] at hd'
        rcases FMap.of_get_insert hd' with ⟨-, rfl⟩ | ⟨-, hd'⟩
        · exact ⟨_, .inr ⟨⟨tx, by simp [hsplit], htype⟩, rfl, rfl, rfl⟩, rfl, rfl, .inl rfl⟩
        · exact hpre p d' ((hregd.without.mem _ _).mp hd').1
      · rw [hupd.mnMap] at hd'
        rcases FMap.of_get_insert hd' with ⟨rfl, rfl⟩ | ⟨-, hd'⟩
        · obtain ⟨s, hs, hrev⟩ := hpre q e hupd.get
          exact ⟨s, hs, hrev.trans (txUpdate_revived hu e.pdmnState)⟩
        · exact hpre p d' hd'
      · exact hpre p d' hd'
    · exact fun pre txin post l l' _ hpre hw p d' hd' => hpre p d' ((hw.mem p d').mp hd').1
  obtain ⟨l, hwfl, hP, hpay⟩ := hinv.unpaid hinj hwf hr
  obtain ⟨d₁, hd₁, hregistered, hrevived, hpaid⟩ := payPayee_times hinj hwfl hpay hd'
  obtain ⟨s, hs, hrev⟩ := hP p d₁ hd₁
  refine ⟨s, hs, hregistered.trans hrev.registered, ?_, ?_⟩
  · rw [hrevived]
    exact hrev.revived
  · rw [hpaid, getMNPayee_hash, hrev.lastPaid]

/-! ### The heights are below the height of the chain -/

omit hinj in
/-- No height of a member is above `h`. -/
structure HeightsBelow (h : Int) (s : DeterministicMNState) : Prop where
  registered : s.nRegisteredHeight.toInt ≤ h
  lastPaid : s.nLastPaidHeight.toInt ≤ h
  revived : s.nPoSeRevivedHeight.toInt ≤ h

omit hinj in
theorem HeightsBelow.getHeight_le (hd : HeightsBelow h d.pdmnState)
    : (compareByLastPaidGetHeight d).toInt ≤ h := by
  dsimp only [compareByLastPaidGetHeight]
  split_ifs
  · exact hd.revived
  · exact hd.registered
  · exact hd.lastPaid

section
variable (hwf : Wf env.serializeHash prev.mnList) (hh : 0 ≤ h)
  (hheight : (prev.nHeight + 1).toInt = h + 1)
  (hbelow : ∀ (p : Uint256) (d : DeterministicMN), prev.mnList.mnMap[p]? = some d →
    HeightsBelow h d.pdmnState)
  (hr : buildNewListFromBlock env vtx prev = .ok l')
include hwf hh hheight hbelow hr

/-- The heights after a block are at most its height. -/
theorem build_heightsBelow (hd' : l'.mnMap[p]? = some d') : HeightsBelow (h + 1) d'.pdmnState := by
  obtain ⟨s, horigin, hregistered, hrevived, hpaid⟩ := build_times hinj hwf hr hd'
  have hzero : (0 : Int32).toInt = 0 := rfl
  have hnone : (-1 : Int32).toInt = -1 := rfl
  have hs : HeightsBelow (h + 1) s := by
    rcases horigin with ⟨d, hd, rfl⟩ | ⟨-, hreg, hlast, hrev⟩
    · obtain ⟨hreg, hlast, hrev⟩ := hbelow p d hd
      exact ⟨by omega, by omega, by omega⟩
    · exact ⟨hreg ▸ hheight.le, by rw [hlast]; omega, by rw [hrev]; omega⟩
  refine ⟨hregistered ▸ hs.registered, ?_, ?_⟩
  · rw [hpaid]
    split_ifs
    · exact hheight.le
    · exact hs.lastPaid
  · rcases hrevived with heq | heq
    · exact heq ▸ hs.revived
    · exact heq ▸ hheight.le

/-! ### One block rotates the queue -/

omit hinj in
/-- **No masternode is registered, removed, banned or revived** by a block: the valid ones are
the same before and after it, and none has been revived at its height. -/
structure Steady (nHeight : Int32) (vtx : List Transaction) (l l' : DeterministicMNList) :
    Prop where
  noRegistration : ∀ tx ∈ vtx.tail, tx.nType ≠ .proReg
  kept : l.validHashes ⊆ l'.validHashes
  noNew : l'.validHashes ⊆ l.validHashes
  noRevival : ∀ d ∈ l'.members, d.pdmnState.nPoSeRevivedHeight ≠ nHeight

/-- **A block pays the head of the queue and puts it at the end.** -/
theorem payQueue_build (hwf' : Wf env.serializeHash l')
    (hsteady : Steady (prev.nHeight + 1) vtx prev.mnList l') :
    l'.payQueue = prev.mnList.payQueue.rotate 1 := by
  have hmem : ∀ p, p ∈ l'.payQueue ↔ p ∈ prev.mnList.payQueue := by
    intro p
    rw [l'.payQueue_perm.mem_iff, prev.mnList.payQueue_perm.mem_iff]
    exact ⟨fun hp => hsteady.noNew hp, fun hp => hsteady.kept hp⟩
  -- a valid masternode before and after the block
  have htimes : ∀ p ∈ prev.mnList.payQueue, ∃ d d', prev.mnList.mnMap[p]? = some d ∧
      l'.mnMap[p]? = some d' ∧ d.proTxHash = p ∧ d'.proTxHash = p ∧
      d'.pdmnState.nRegisteredHeight = d.pdmnState.nRegisteredHeight ∧
      d'.pdmnState.nPoSeRevivedHeight = d.pdmnState.nPoSeRevivedHeight ∧
      d'.pdmnState.nLastPaidHeight = if prev.mnList.payQueue.head? = some p then prev.nHeight + 1
        else d.pdmnState.nLastPaidHeight := by
    intro p hp
    obtain ⟨d', hd', -⟩ := (mem_payQueue hwf').mp ((hmem p).mpr hp)
    obtain ⟨_, ⟨d, hd, rfl⟩ | ⟨⟨tx, htx, htype⟩, -⟩, hregistered, hrevived, hpaid⟩ :=
      build_times hinj hwf hr hd'
    case inr => exact absurd htype (hsteady.noRegistration tx htx)
    refine ⟨d, d', hd, hd', hwf.key hd, hwf'.key hd', hregistered, ?_, hpaid⟩
    rcases hrevived with heq | heq
    · exact heq
    · have hd'mem : d' ∈ l'.members := hwf'.mem_members.mpr ((hwf'.key hd').symm ▸ hd')
      exact absurd heq (hsteady.noRevival d' hd'mem)
  cases hqueue : prev.mnList.payQueue with
  | nil =>
    have hnil : l'.payQueue = [] := by
      refine eq_nil_iff_forall_not_mem.mpr fun p hp => ?_
      have hp := (hmem p).mp hp
      simp [hqueue] at hp
    rw [hnil]
    rfl
  | cons a q =>
    have hordered := payQueue_ordered hwf
    rw [hqueue] at hordered htimes hmem
    have hnodup := nodup_cons.mp hordered.nodup
    have hkeep : ∀ b ∈ q, l'.waitKey b = prev.mnList.waitKey b := by
      intro b hb
      obtain ⟨d, d', hd, hd', hkey, hkey', hregistered, hrevived, hpaid⟩ :=
        htimes b (.tail _ hb)
      have hne : a ≠ b := fun heq => hnodup.1 (heq ▸ hb)
      rw [head?_cons, if_neg (by simpa using hne)] at hpaid
      rw [waitKey_eq hkey' hd', waitKey_eq hkey hd, payKey, payKey, hkey, hkey']
      simp only [compareByLastPaidGetHeight, hregistered, hpaid, hrevived]
    rw [rotate_cons_succ, rotate_zero]
    refine (payQueue_ordered hwf').eq_of_mem_iff (hordered.serve hkeep ?_) ?_
    · -- the others wait since a height up to that of the previous block
      intro b hb
      obtain ⟨d, -, hd, -, hkey, -⟩ := htimes b (.tail _ hb)
      obtain ⟨e, e', he, he', hekey, hekey', -, hrevived, hpaid⟩ := htimes a (.head _)
      rw [head?_cons, if_pos rfl] at hpaid
      have hlast : (compareByLastPaidGetHeight e').toInt = h + 1 := by
        have hrev := (hbelow a e he).revived
        dsimp only [compareByLastPaidGetHeight]
        rw [hpaid, hrevived, if_neg, if_neg]
        · exact hheight
        · intro hzero
          rw [hzero] at hheight
          have hz : (0 : Int32).toInt = 0 := rfl
          omega
        · intro hlt
          have hlt := Int32.lt_iff_toInt_lt.mp hlt.2
          omega
      have hle := (hbelow b d hd).getHeight_le
      rw [hkeep b hb, waitKey_eq hkey hd, waitKey_eq hekey' he', payKey, payKey,
        Prod.Lex.toLex_lt_toLex]
      exact .inl (by simp only; omega)
    · intro p
      rw [hmem p]
      simp [or_comm]

end

end

/-! ### Runs of blocks -/

namespace Manager

variable {env : ChainEnv} {T : BlockTree env}

variable (env) in
/-- The masternode that a block pays: `GetMNPayee` of the list of its parent. -/
def payeeOf : BlockIndex → Option Uint256
  | .genesis _ => none
  | .child pprev _ _ =>
    match foldList env pprev with
    | .ok l => l.getMNPayee.map proTxHash
    | .error _ => none

variable (env) in
/-- A block is steady after its parent. -/
def SteadyBlock : BlockIndex → Prop
  | .genesis _ => True
  | .child p h vtx => ∀ l, foldList env p = .ok l → ∀ l', foldList env (.child p h vtx) = .ok l' →
    Steady (p.nHeight + 1) vtx l l'

section
variable (hinj : Function.Injective env.serializeHash)
include hinj

/-- The heights in the list of a block are at most the number of blocks before it. -/
theorem foldList_heightsBelow {b} (hb : T.mem b) (hdepth : b.depth < 2 ^ 31)
    (hl : foldList env b = .ok l) (hd : l.mnMap[p]? = some d)
    : HeightsBelow b.depth d.pdmnState := by
  induction b generalizing l p d with
  | genesis g =>
    cases hl
    simp at hd
  | child pp g vtx ih =>
    by_cases henf : env.isDIP3Enforced (pp.nHeight + 1) = true
    · obtain ⟨lp, hlp, l₁, hr, rfl⟩ := (foldList_child henf).mp hl
      have hlt : pp.depth + 1 < 2 ^ 31 := hdepth
      have hheight : (pp.nHeight + 1).toInt = (pp.depth : Int) + 1 := BlockIndex.toInt_nHeight hdepth
      have hwf : Wf env.serializeHash (prevIndex env pp lp).mnList :=
        (foldList_registry hinj (T.parent hb) hlp).wf
      exact build_heightsBelow hinj hwf (by omega) hheight
        (fun q e he => ih (T.parent hb) (by omega) hlp he) hr hd
    · rw [Bool.not_eq_true] at henf
      rw [foldList_of_not_enforced henf] at hl
      cases hl
      simp at hd

/-- One steady block rotates the queue. -/
theorem payQueue_foldList {pp} {g} (hb : T.mem (.child pp g vtx))
    (hdepth : (BlockIndex.child pp g vtx).depth < 2 ^ 31)
    (henf : env.isDIP3Enforced (pp.nHeight + 1) = true)
    (hsteady : SteadyBlock env (.child pp g vtx)) (hl : foldList env pp = .ok l)
    (hl' : foldList env (.child pp g vtx) = .ok l') : l'.payQueue = l.payQueue.rotate 1 := by
  have hlt : pp.depth + 1 < 2 ^ 31 := hdepth
  have hheight : (pp.nHeight + 1).toInt = (pp.depth : Int) + 1 := BlockIndex.toInt_nHeight hdepth
  have hst := hsteady l hl l' hl'
  have hwf' := (foldList_registry hinj hb hl').wf
  obtain ⟨lp, hlp, l₁, hr, rfl⟩ := (foldList_child henf).mp hl'
  obtain rfl := ok_unique hlp hl
  have hwf : Wf env.serializeHash (prevIndex env pp lp).mnList :=
    (foldList_registry hinj (T.parent hb) hl).wf
  have hwf₁ : Wf env.serializeHash l₁ := hwf'.of_maps_eq rfl rfl rfl
  have hqueue : l₁.payQueue = lp.payQueue.rotate 1 :=
    payQueue_build hinj hwf (by omega) hheight
      (fun q e he => foldList_heightsBelow hinj (T.parent hb) (by omega) hl he) hr hwf₁
      ⟨hst.noRegistration, hst.kept, hst.noNew, hst.noRevival⟩
  exact hqueue

variable {path : List BlockIndex}

omit hinj in
theorem Path.depth_le {s t b} (hpath : Path s path t) (hb : b ∈ path) : s.depth ≤ b.depth := by
  induction hpath with
  | nil => cases hb
  | @cons s t g vtx path hpath ih =>
    have hle : s.depth ≤ (BlockIndex.child s g vtx).depth := Nat.le_succ _
    rcases mem_cons.mp hb with rfl | hb
    · exact hle
    · exact hle.trans (ih hb)

/-- The payees of a steady run are the heads of the rotated queue. -/
theorem payees_eq {s t} (hpath : Path s path t) (hmem : ∀ b ∈ path, T.mem b)
    (hdepth : ∀ b ∈ path, b.depth < 2 ^ 31) (hlists : ∀ b ∈ path, ∃ l, foldList env b = .ok l)
    (hsteady : ∀ b ∈ path, SteadyBlock env b)
    (henf : ∀ b ∈ path, env.isDIP3Enforced b.nHeight = true) (hl : foldList env s = .ok l) :
    path.map (payeeOf env) = (range path.length).map fun j => (l.payQueue.rotate j).head? := by
  induction hpath generalizing l with
  | nil b => rfl
  | @cons s t g vtx path hpath ih =>
    obtain ⟨l', hl'⟩ := hlists _ (.head _)
    have hrotate := payQueue_foldList hinj (hmem _ (.head _)) (hdepth _ (.head _))
      (henf _ (.head _)) (hsteady _ (.head _)) hl hl'
    have hrest := ih (fun b hb => hmem b (.tail _ hb))
      (fun b hb => hdepth b (.tail _ hb))
      (fun b hb => hlists b (.tail _ hb))
      (fun b hb => hsteady b (.tail _ hb))
      (fun b hb => henf b (.tail _ hb)) hl'
    have hhead : payeeOf env (.child s g vtx) = l.payQueue.head? := by
      simp [payeeOf, hl, getMNPayee_hash]
    rw [map_cons, length_cons, range_succ_eq_map, map_cons, map_map, hrest, hhead, rotate_zero]
    congr 1
    refine map_congr_left fun j _ => ?_
    rw [Function.comp_apply, hrotate, rotate_rotate, Nat.add_comm]

/-- **Every valid masternode is paid in turn.** In a run of blocks that register, remove, ban
and revive no masternode, from a list with `n > 0` valid ones: in every window of `n` blocks
each of them is the payee of exactly one, and the projected payees of the start are, in order,
the payees of the next blocks. -/
theorem payees_rotate {s t : BlockIndex} {path : List BlockIndex} (hpath : Path s path t)
    (hs : T.mem s) (hmem : ∀ b ∈ path, T.mem b) (hdepth : ∀ b ∈ path, b.depth < 2 ^ 31)
    (hlists : ∀ b ∈ path, ∃ l, foldList env b = .ok l) (hsteady : ∀ b ∈ path, SteadyBlock env b)
    {l : DeterministicMNList} (hl : foldList env s = .ok l) (hn : 0 < l.getValidMNsCount) :
    (∀ i, i + l.getValidMNsCount ≤ path.length → ∀ p ∈ l.validHashes,
      (((path.map (payeeOf env)).drop i).take l.getValidMNsCount).count (some p) = 1) ∧
    ∀ c, c ≤ l.getValidMNsCount → c ≤ path.length →
      (l.getProjectedMNPayees c).map (fun d => some d.proTxHash) =
        (path.map (payeeOf env)).take c := by
  have hstart : env.isDIP3Enforced s.nHeight = true := by
    by_contra henf
    rw [Bool.not_eq_true] at henf
    rw [foldList_of_not_enforced henf] at hl
    obtain rfl := Except.ok.inj hl
    exact absurd hn (by decide)
  have hpayees := payees_eq hinj hpath hmem hdepth hlists hsteady
    (fun b hb => enforced_of_depth_le (hpath.depth_le hb) (hdepth b hb) hstart) hl
  rw [hpayees]
  refine ⟨fun i hi p hp => ?_, fun c hc hclen => ?_⟩
  · have hwindow : (((range path.length).map fun j => (l.payQueue.rotate j).head?).drop i).take
        l.getValidMNsCount = (l.payQueue.rotate i).map some := by
      rw [← map_head_rotate_range', length_payQueue, range_eq_range', ← map_drop,
        ← map_take, drop_range', take_range'_of_length_ge (by omega)]
      simp
    rw [hwindow, count_map_of_injective _ _ (Option.some_injective _)]
    have hnodup := (payQueue_ordered (foldList_registry hinj hs hl).wf).nodup
    exact count_eq_one_of_mem (nodup_rotate.mpr hnodup)
      (mem_rotate.mpr (l.payQueue_perm.mem_iff.mpr hp))
  · have hlen : c ≤ l.payQueue.length := by rw [length_payQueue]; exact hc
    rw [← map_take, take_range, min_eq_left hclen, map_head_rotate_range hlen,
      ← getProjectedMNPayees_hash l hc, map_map]
    rfl

end

end Manager

/-! ### Two masternodes in turn -/

open Manager

instance (nHeight : Int32) (vtx : List Transaction) (l l' : DeterministicMNList) :
    Decidable (Steady nHeight vtx l l') :=
  decidable_of_iff
    ((∀ tx ∈ vtx.tail, tx.nType ≠ .proReg) ∧ (∀ d ∈ l.validMNs, d.proTxHash ∈ l'.validHashes) ∧
      (∀ d ∈ l'.validMNs, d.proTxHash ∈ l.validHashes) ∧
      ∀ d ∈ l'.members, d.pdmnState.nPoSeRevivedHeight ≠ nHeight)
    ⟨fun ⟨h₁, h₂, h₃, h₄⟩ => ⟨h₁, forall_mem_map.mpr h₂, forall_mem_map.mpr h₃, h₄⟩,
      fun ⟨h₁, h₂, h₃, h₄⟩ => ⟨h₁, forall_mem_map.mp h₂, forall_mem_map.mp h₃, h₄⟩⟩

instance {env : ChainEnv} : (b : BlockIndex) → Decidable (SteadyBlock env b)
  | .genesis _ => isTrue trivial
  | .child p h vtx => inferInstanceAs (Decidable (∀ l, foldList env p = .ok l →
      ∀ l', foldList env (.child p h vtx) = .ok l' → Steady (p.nHeight + 1) vtx l l'))

namespace Sample

/-- Register a masternode with an address. -/
def registerServed (hash : Uint256) (k : KeyID) (port : UInt16) : Transaction :=
  { registerFurther hash k with
    extraPayload := some (putProRegPL
      { collateralOutpoint := ⟨0, 0⟩, addr := ⟨5, port⟩, keyIDOwner := k, keyIDOperator := k + 1,
        keyIDVoting := k + 2, scriptPayout := p2pkh (k + 3), inputsHash := 0 }) }

def servedBlock : BlockIndex :=
  .child genesisBlock 150 [coinbase, registerServed 40 70 1, registerServed 41 80 2]

def idleBlock (pprev : BlockIndex) (h : Uint256) : BlockIndex := .child pprev h [coinbase]

def idlePath : List BlockIndex :=
  [idleBlock servedBlock 151, idleBlock (idleBlock servedBlock 151) 152,
    idleBlock (idleBlock (idleBlock servedBlock 151) 152) 153]

def idleTip : BlockIndex := idleBlock (idleBlock (idleBlock servedBlock 151) 152) 153

def idleTree : Manager.BlockTree regtestChain :=
  idleTip.tree (by decide +kernel) (by decide +kernel)
    (by unfold HashesIdentify HashesNonNull; decide +kernel)

end Sample

open Sample

/-- Two valid masternodes and three blocks: in every window of two blocks both are paid. -/
theorem idlePath_payees : ∃ l, foldList regtestChain servedBlock = .ok l ∧ l.getValidMNsCount = 2 ∧
      (∀ i, i + 2 ≤ 3 → ∀ p ∈ l.validHashes,
        (((idlePath.map (payeeOf regtestChain)).drop i).take 2).count (some p) = 1) ∧
      (l.getProjectedMNPayees 2).map (fun d => some d.proTxHash) =
        (idlePath.map (payeeOf regtestChain)).take 2 := by
  have hok : (foldList regtestChain servedBlock).isOk = true := by decide +kernel
  obtain ⟨l, hl⟩ := exists_ok_of_isOk hok
  have hcount : l.getValidMNsCount = 2 := by
    have hall : ∀ l, foldList regtestChain servedBlock = .ok l →
        l.getValidMNsCount = 2 := by decide +kernel
    exact hall l hl
  have hsub : ∀ b ∈ idlePath, b ∈ idleTip.ancestors := by decide +kernel
  have hlists : ∀ b ∈ idlePath, (foldList regtestChain b).isOk = true := by
    decide +kernel
  have hsteady : ∀ b ∈ idlePath, SteadyBlock regtestChain b := by
    decide +kernel
  have hpayees := payees_rotate (T := idleTree) UniqueProperty.numbering_injective
    (.cons (.cons (.cons (.nil _)))) (mem_tree (by decide +kernel))
    hsub (by decide +kernel) (fun b hb => exists_ok_of_isOk (hlists b hb)) hsteady hl (by omega)
  rw [hcount] at hpayees
  exact ⟨l, hl, hcount, hpayees.1, hpayees.2 2 le_rfl (by decide)⟩

end KmushiCoin
