import KmushiCoin.Evo.ManagerFrame
import KmushiCoin.Evo.ManagerSound
import KmushiCoin.Masternode.Man

/-!
# KmushiCoin.Evo.SpecialTx

**`ProcessSpecialTxsInBlock`**: the special transactions of a block are checked, and then the
list of the block is built and stored.

* The checks read the list of the previous block only after everything before has passed
  (`readsList`), and reading it is a read (`getListForBlock_reads`).
* The builder also touches the legacy masternode list, at once: a legacy masternode whose
  collateral is registered is spent and removed (`retire`) before the rest of the
  registration is checked. Nothing takes that back when the block is refused or was only to
  be checked.
* `unchanged_iff` says when a call that only checks, or that returns false, leaves everything
  unchanged.
-/

namespace KmushiCoin

open Codec DeterministicMNList MasternodeMan Prog List

/-! ### When a check reads the list -/

/-- Whether the check of a transaction gets as far as the list of the previous block. -/
def readsList (env : Env) (tx : Transaction) (prev : PrevIndex) : Bool :=
  !tx.isNormalType && (checkSpecialTxBasic tx).isOk && env.isDIP3Enforced (prev.nHeight + 1) &&
    (checkSpecialTxType env tx none).isOk &&
    match tx.nType with
    | .proReg => (getTxPayload getProRegPL tx).any fun pl =>
      (checkProRegCollateral env tx pl (some prev)).isOk
    | .proUpReg => env.legacyMNObsolete (prev.nHeight + 1)
    | _ => true

section
variable {env : Env} {tx : Transaction} {prev prev' : PrevIndex}
  (hheight : prev'.nHeight = prev.nHeight) (hcoins : prev'.getUTXOCoin = prev.getUTXOCoin)
include hheight hcoins

/-- A check that does not get to the list does not depend on it. -/
theorem checkSpecialTx_of_not_readsList (h : readsList env tx prev = false) :
    checkSpecialTx env tx prev' = checkSpecialTx env tx prev := by
  unfold checkSpecialTx
  refine bind_congr_ok fun _ hbasic => ?_
  rw [hheight]
  refine bind_congr_ok fun _ hactive => ?_
  rw [rejectIf_ok] at hactive
  -- a special transaction whose own checks passed reads the list
  have hreads : tx.nType ≠ .normal → checkSpecialTxType env tx none = .ok () → (match tx.nType with
        | .proReg => (getTxPayload getProRegPL tx).any fun pl =>
          (checkProRegCollateral env tx pl (some prev)).isOk
        | .proUpReg => env.legacyMNObsolete (prev.nHeight + 1)
        | _ => true) = true → False := by
    intro hne hown hlast
    have hnormal : tx.isNormalType = false := by simpa [Transaction.isNormalType] using hne
    have henf : env.isDIP3Enforced (prev.nHeight + 1) = true := by simpa [hnormal] using hactive
    unfold readsList at h
    rw [hlast, hnormal, hbasic, henf, hown] at h
    cases h
  cases htype : tx.nType with
  | normal => simp [checkSpecialTxType, htype]
  | unknown n => simp [checkSpecialTxType, htype]
  | proReg =>
    simp only [checkSpecialTxType, htype, checkProRegTx] at hreads ⊢
    cases hpl : getTxPayload getProRegPL tx with
    | none => rfl
    | some pl =>
      have hcoll : checkProRegCollateral env tx pl (some prev') =
          checkProRegCollateral env tx pl (some prev) := by
        simp [checkProRegCollateral, checkExternalCollateral, hcoins]
      simp only [hcoll]
      refine bind_congr_ok fun _ h₁ => bind_congr_ok fun _ h₂ => bind_congr_ok fun _ h₃ => ?_
      refine bind_congr_ok fun _ h₄ => bind_congr_ok fun _ h₅ => bind_congr_ok fun _ h₆ => ?_
      refine bind_congr_ok fun _ h₇ => bind_congr_ok fun _ h₈ => bind_congr_ok fun _ h₉ => ?_
      refine bind_congr_ok fun _ h₁₀ => bind_congr_ok fun _ h₁₁ => ?_
      have hnone : checkProRegCollateral env tx pl none = .ok () := by
        unfold checkProRegCollateral at h₁₀ ⊢
        split_ifs at h₁₀ ⊢
        · exact h₁₀
        · rfl
      refine (hreads (by simp) ?_ (by simp [hpl, h₁₀, Except.isOk, Except.toBool])).elim
      simp [hpl, h₁, h₂, h₃, h₄, h₅, h₆, h₇, h₈, h₉, hnone, h₁₁, checkProRegList]
  | proUpServ =>
    simp only [checkSpecialTxType, htype, checkProUpServTx] at hreads ⊢
    cases hpl : getTxPayload getProUpServPL tx with
    | none => rfl
    | some pl =>
      refine bind_congr_ok fun _ h₁ => bind_congr_ok fun _ h₂ => bind_congr_ok fun _ h₃ => ?_
      refine (hreads (by simp) ?_ trivial).elim
      simp [hpl, h₁, h₂, h₃, checkProUpServList]
  | proUpReg =>
    simp only [checkSpecialTxType, htype, checkProUpRegTx] at hreads ⊢
    cases hpl : getTxPayload getProUpRegPL tx with
    | none => rfl
    | some pl =>
      refine bind_congr_ok fun _ h₁ => bind_congr_ok fun _ h₂ => bind_congr_ok fun _ h₃ => ?_
      refine bind_congr_ok fun _ h₄ => bind_congr_ok fun _ h₅ => ?_
      cases hdest : env.extractDestination pl.scriptPayout with
      | none => rfl
      | some payoutDest =>
        refine bind_congr_ok fun _ h₆ => bind_congr_ok fun _ h₇ => ?_
        simp only [checkProUpRegList, hheight]
        refine bind_congr_ok fun _ hobsolete => ?_
        rw [rejectIf_ok] at hobsolete
        refine (hreads (by simp) ?_ (by simpa using hobsolete)).elim
        simp [hpl, h₁, h₂, h₃, h₄, h₅, hdest, h₆, h₇, checkProUpRegList]
  | proUpRev =>
    simp only [checkSpecialTxType, htype, checkProUpRevTx] at hreads ⊢
    cases hpl : getTxPayload getProUpRevPL tx with
    | none => rfl
    | some pl =>
      refine bind_congr_ok fun _ h₁ => bind_congr_ok fun _ h₂ => bind_congr_ok fun _ h₃ => ?_
      refine (hreads (by simp) ?_ trivial).elim
      simp [hpl, h₁, h₂, h₃, checkProUpRevList]

end

/-! ### Building the list, with the legacy masternodes -/

section
variable (env : Env) (clock : MasternodeClock) (legacyMNObsolete : Bool)

/-- Apply one transaction. A registration first retires the legacy masternode that has its
collateral. -/
def applyTxRetiring (prev : PrevIndex) (nHeight : Int32) (newList : DeterministicMNList)
    (tx : Transaction) : Prog MasternodeMan Failure DeterministicMNList := do
  match tx.nType, getTxPayload getProRegPL tx with
  | .proReg, some pl => modify (retire clock legacyMNObsolete (pl.collateral tx))
  | _, _ => pure ()
  Prog.ofExcept (applyTx env prev nHeight newList tx)

/-- `BuildNewListFromBlock` with its effect on the legacy masternodes. -/
def buildNewListRetiring (vtx : List Transaction) (prev : PrevIndex) :
    Prog MasternodeMan Failure DeterministicMNList := do
  let nHeight := prev.nHeight + 1
  let oldList := prev.mnList
  let newList := (oldList.setBlockHash 0).setHeight nHeight
  let payee := oldList.getMNPayee
  let newList ← Prog.ofExcept (oldList.members.foldlM (confirmMN env prev) newList)
  let newList ← Prog.ofExcept (decreasePoSePenalties env newList)
  let newList ← vtx.tail.foldlM (applyTxRetiring env clock legacyMNObsolete prev nHeight) newList
  let newList ← Prog.ofExcept
    ((vtx.tail.flatMap Transaction.vin).foldlM (spendInput env) newList)
  Prog.ofExcept (payPayee env nHeight payee newList)

end

section
variable {env : Env} {clock : MasternodeClock} {legacyMNObsolete : Bool} {prev : PrevIndex}

/-- A transaction of the list retires a legacy masternode: the transactions before it are
applied, its payload is read, and a legacy masternode has its collateral. -/
def RetiresOne (env : Env) (prev : PrevIndex) (nHeight : Int32) (txs : List Transaction)
    (l : DeterministicMNList) (man : MasternodeMan) : Prop :=
  ∃ pre tx post pl before, txs = pre ++ tx :: post ∧ tx.nType = .proReg ∧
    getTxPayload getProRegPL tx = some pl ∧
    pre.foldlM (applyTx env prev nHeight) l = .ok before ∧ pl.collateral tx ∈ man

variable {l : DeterministicMNList}

theorem not_retiresOne_nil {nHeight} {man} : ¬ RetiresOne env prev nHeight [] l man := by
  rintro ⟨pre, tx, post, pl, before, hsplit, -⟩
  simp at hsplit

/-- The first transaction, or one after it. -/
theorem retiresOne_cons {nHeight} {tx} {txs} {man} : RetiresOne env prev nHeight (tx :: txs) l man ↔
      (tx.nType = .proReg ∧ ∃ pl, getTxPayload getProRegPL tx = some pl ∧ pl.collateral tx ∈ man) ∨
      ∃ l₁, applyTx env prev nHeight l tx = .ok l₁ ∧ RetiresOne env prev nHeight txs l₁ man := by
  constructor
  · rintro ⟨pre, t, post, pl, before, hsplit, htype, hpl, hbefore, hmem⟩
    cases pre with
    | nil =>
      cases hsplit
      exact .inl ⟨htype, pl, hpl, hmem⟩
    | cons t' pre =>
      cases hsplit
      obtain ⟨l₁, hl₁, hbefore⟩ := bind_ok.mp hbefore
      exact .inr ⟨l₁, hl₁, pre, t, post, pl, before, rfl, htype, hpl, hbefore, hmem⟩
  · rintro (⟨htype, pl, hpl, hmem⟩ | ⟨l₁, hl₁, pre, t, post, pl, before, rfl, htype, hpl, hbefore, hmem⟩)
    · exact ⟨[], tx, txs, pl, l, rfl, htype, hpl, rfl, hmem⟩
    · refine ⟨tx :: pre, t, post, pl, before, rfl, htype, hpl, ?_, hmem⟩
      rw [foldlM_cons]
      exact bind_ok.mpr ⟨l₁, hl₁, hbefore⟩

variable (env clock legacyMNObsolete prev) in
/-- One transaction: the list as without the legacy masternodes, and these unchanged exactly
if none has the collateral. -/
theorem applyTxRetiring_exec (nHeight : Int32) (l : DeterministicMNList) (tx : Transaction)
    (man : MasternodeMan) : ∃ man',
      (applyTxRetiring env clock legacyMNObsolete prev nHeight l tx).exec man =
        (applyTx env prev nHeight l tx, man') ∧ (∀ q : OutPoint, man[q]? = none → man'[q]? = none) ∧
      (man' = man ↔ ¬ (tx.nType = .proReg ∧ ∃ pl, getTxPayload getProRegPL tx = some pl ∧
        pl.collateral tx ∈ man)) ∧
      (tx.nType = .proReg → ∀ pl, getTxPayload getProRegPL tx = some pl →
        man'[pl.collateral tx]? = none) := by
  unfold applyTxRetiring
  by_cases htype : tx.nType = .proReg
  · cases hpl : getTxPayload getProRegPL tx with
    | none =>
      simp only [htype]
      exact ⟨man, by simp, fun _ h => h, by simp, by simp⟩
    | some pl =>
      simp only [htype]
      refine ⟨man.retire clock legacyMNObsolete (pl.collateral tx), by simp [exec_bind],
        fun q hq => getElem?_retire_none hq, ?_, ?_⟩
      · constructor
        · rintro heq ⟨-, _, ⟨⟩, hmem⟩
          have hnone := getElem?_retire_self clock legacyMNObsolete (pl.collateral tx) man
          rw [heq] at hnone
          simp [Std.ExtTreeMap.mem_iff_isSome_getElem?, hnone] at hmem
        · intro hnot
          suffices hnone : man[pl.collateral tx]? = none by simp [retire, hnone]
          by_contra hne
          refine hnot ⟨trivial, pl, rfl, ?_⟩
          rwa [Std.ExtTreeMap.mem_iff_isSome_getElem?, Option.isSome_iff_ne_none]
      · rintro _ _ ⟨⟩
        exact getElem?_retire_self _ _ _ _
  · refine ⟨man, ?_, fun _ h => h, by simp [htype], fun h => absurd h htype⟩
    split
    · rename_i heq _
      exact absurd heq htype
    · simp

variable (env clock legacyMNObsolete prev) in
/-- The transactions of a block. -/
theorem applyTxsRetiring_exec (nHeight : Int32) (txs : List Transaction)
    (l : DeterministicMNList) (man : MasternodeMan) : ∃ man',
      (txs.foldlM (applyTxRetiring env clock legacyMNObsolete prev nHeight) l).exec man =
        (txs.foldlM (applyTx env prev nHeight) l, man') ∧
      (∀ q : OutPoint, man[q]? = none → man'[q]? = none) ∧
      (man' = man ↔ ¬ RetiresOne env prev nHeight txs l man) := by
  induction txs generalizing l man with
  | nil => exact ⟨man, rfl, fun _ h => h, by simp [not_retiresOne_nil]⟩
  | cons tx txs ih =>
    obtain ⟨man₁, hexec, hmono, hiff, hgone⟩ := applyTxRetiring_exec env clock
      legacyMNObsolete prev nHeight l tx man
    rw [foldlM_cons, foldlM_cons, exec_bind, hexec]
    simp only [retiresOne_cons]
    cases hl₁ : applyTx env prev nHeight l tx with
    | error f => exact ⟨man₁, rfl, hmono, hiff.trans (not_congr (by simp))⟩
    | ok l₁ =>
      obtain ⟨man', hexec', hmono', hiff'⟩ := ih l₁ man₁
      refine ⟨man', hexec', fun q hq => hmono' q (hmono q hq), ?_⟩
      by_cases hfirst : tx.nType = .proReg ∧ ∃ pl, getTxPayload getProRegPL tx = some pl ∧
          pl.collateral tx ∈ man
      · -- the retired masternode does not come back
        refine iff_of_false (fun heq => ?_) (by simp [hfirst])
        obtain ⟨htype, pl, hpl, hmem⟩ := hfirst
        have hnone := hmono' _ (hgone htype pl hpl)
        rw [heq] at hnone
        simp [Std.ExtTreeMap.mem_iff_isSome_getElem?, hnone] at hmem
      · obtain rfl := hiff.mpr hfirst
        simp [hiff', hfirst]

variable (env clock legacyMNObsolete prev) in
/-- **The builder**: the list as without the legacy masternodes, and these unchanged exactly if
no transaction retires one. -/
theorem buildNewListRetiring_exec (vtx : List Transaction) (man : MasternodeMan) : ∃ man',
      (buildNewListRetiring env clock legacyMNObsolete vtx prev).exec man =
        (buildNewListFromBlock env vtx prev, man') ∧
      (man' = man ↔ ¬ ∃ l₂, listBeforeTx env vtx prev 0 = .ok l₂ ∧
        RetiresOne env prev (prev.nHeight + 1) vtx.tail l₂ man) := by
  unfold buildNewListRetiring buildNewListFromBlock listBeforeTx
  simp only [exec_bind, exec_ofExcept, take_zero, tail_nil, foldlM_nil]
  cases hconfirm : prev.mnList.members.foldlM (confirmMN env prev)
      ((prev.mnList.setBlockHash 0).setHeight (prev.nHeight + 1)) with
  | error f => exact ⟨man, rfl, by simp [bind, Except.bind]⟩
  | ok l₁ =>
    cases hdecrease : decreasePoSePenalties env l₁ with
    | error f => exact ⟨man, by simp [bind, Except.bind, hdecrease], by simp [bind, Except.bind, hdecrease]⟩
    | ok l₂ =>
      obtain ⟨man', hexec, -, hiff⟩ := applyTxsRetiring_exec env clock legacyMNObsolete prev
        (prev.nHeight + 1) vtx.tail l₂ man
      refine ⟨man', ?_, ?_⟩
      · simp only [ok_bind, hdecrease, hexec]
        cases vtx.tail.foldlM (applyTx env prev (prev.nHeight + 1)) l₂ with
        | error f => rfl
        | ok l₃ =>
          simp only [ok_bind]
          cases (vtx.tail.flatMap Transaction.vin).foldlM (spendInput env) l₃ with
          | error f => rfl
          | ok l₄ => rfl
      · rw [hiff]
        simp [hdecrease, pure, Except.pure]

end

/-! ### The call -/

namespace Manager

section
variable (env : ChainEnv) (clock : MasternodeClock)

/-- `LegacyMNObsolete()`: at the height of the tip. -/
def legacyMNObsolete (m : Manager) : Bool :=
  env.legacyMNObsolete (match m.tipIndex with | some tip => tip.nHeight | none => -1)

/-- `CheckSpecialTx`; the list of the previous block is read when the check gets to it. -/
def checkSpecialTxIn (pprev : BlockIndex) (tx : Transaction) : Action Unit :=
  if readsList env.toEnv tx (prevIndex env pprev {}) then do
    let mnList ← getListForBlock env pprev
    Prog.ofExcept (checkSpecialTx env.toEnv tx (prevIndex env pprev mnList))
  else Prog.ofExcept (checkSpecialTx env.toEnv tx (prevIndex env pprev {}))

/-- The guarded part of `ProcessBlock`, with the legacy masternodes. -/
def connectListRetiring (fJustCheck : Bool) :
    BlockIndex → Prog (Manager × MasternodeMan) Failure Unit
  | .genesis _ => throw (.abort "null pointer: pindexPrev->nHeight")
  | .child pprev h vtx => do
    let prevList ← Prog.onFst (getListForBlock env pprev)
    let s ← get
    let newList ← Prog.onSnd (buildNewListRetiring env.toEnv clock (legacyMNObsolete env s.1) vtx
      (prevIndex env pprev prevList))
    Prog.onlyWhen (!fJustCheck) do
      let oldList ← Prog.onFst (getListForBlock env pprev)
      Prog.onFst (modify
        (storeList (pprev.nHeight + 1) h oldList (finishList (pprev.nHeight + 1) h newList)))

def processBlockRetiring (pindex : BlockIndex) (fJustCheck : Bool) :
    Prog (Manager × MasternodeMan) Failure Unit :=
  if !env.isDIP3Enforced pindex.nHeight then pure ()
  else do
    Prog.mapError catchExceptions (connectListRetiring env clock fJustCheck pindex)
    Prog.onlyWhen (!fJustCheck) (Prog.onFst (modify (cleanupCache pindex.nHeight)))

def processSpecialTxsInBlock (pindex : BlockIndex) (fJustCheck : Bool) :
    Prog (Manager × MasternodeMan) Failure Unit :=
  match pindex with
  | .genesis _ => throw (.abort "pindexPrev != nullptr")
  | .child pprev h vtx => do
    vtx.forM fun tx => Prog.onFst (checkSpecialTxIn env pprev tx)
    processBlockRetiring env clock (.child pprev h vtx) fJustCheck

end

variable {env : ChainEnv} {clock : MasternodeClock} {S : Blocks} {m₀ m : Manager}
  {man : MasternodeMan}

/-- The legacy masternodes have no effect on the manager: the call does to it what
`ProcessBlock` does. -/
theorem processBlockRetiring_fst (b : BlockIndex) (fJustCheck : Bool) :
    ((processBlockRetiring env clock b fJustCheck).exec (m, man)).1 =
        ((processBlock env b fJustCheck).exec m).1 ∧
      ((processBlockRetiring env clock b fJustCheck).exec (m, man)).2.1 =
        ((processBlock env b fJustCheck).exec m).2 := by
  have hconnect : ∃ man',
      (connectListRetiring env clock fJustCheck b).exec (m, man) =
        (((connectList env fJustCheck b).exec m).1,
          (((connectList env fJustCheck b).exec m).2, man')) := by
    cases b with
    | genesis h => exact ⟨man, rfl⟩
    | child pprev h vtx =>
      simp only [connectListRetiring, connectList, exec_bind, exec_onFst, exec_get,
        exec_onSnd, exec_ofExcept]
      rcases (getListForBlock env pprev).exec m with ⟨f | l, m₁⟩
      · exact ⟨man, rfl⟩
      · obtain ⟨man', hbuild, -⟩ := buildNewListRetiring_exec env.toEnv clock
          (legacyMNObsolete env m₁) (prevIndex env pprev l) vtx man
        refine ⟨man', ?_⟩
        dsimp only
        rw [hbuild]
        cases buildNewListFromBlock env.toEnv vtx (prevIndex env pprev l) with
        | error f => rfl
        | ok newList =>
          cases fJustCheck with
          | true => rfl
          | false =>
            simp only [onlyWhen, Bool.not_false, if_true, exec_bind, exec_onFst,
              exec_modify]
            rcases (getListForBlock env pprev).exec m₁ with ⟨f | oldList, m₂⟩ <;> rfl
  obtain ⟨man', hconnect⟩ := hconnect
  unfold processBlockRetiring processBlock
  cases env.isDIP3Enforced b.nHeight with
  | false => exact ⟨rfl, rfl⟩
  | true =>
    simp only [Bool.not_true, Bool.false_eq_true, if_false, exec_bind, exec_mapError,
      hconnect]
    rcases (connectList env fJustCheck b).exec m with ⟨f | _, m₁⟩
    · exact ⟨rfl, rfl⟩
    · cases fJustCheck <;> exact ⟨rfl, rfl⟩

/-! ### What the call leaves unchanged -/

variable {pprev : BlockIndex}

/-- One check is a read, and its verdict is the one against the answer for the previous
block. -/
theorem checkSpecialTxIn_reads (hkeyed : Keyed env S m₀) (hb : S.mem pprev) (tx : Transaction) :
    Triple (Filled env S m₀) (checkSpecialTxIn env pprev tx)
      (fun _ m => Filled env S m₀ m ∧ ∀ l, answer env m₀ pprev = .ok l →
        checkSpecialTx env.toEnv tx (prevIndex env pprev l) = .ok ())
      (fun f m => Filled env S m₀ m ∧ ∀ l, answer env m₀ pprev = .ok l →
        checkSpecialTx env.toEnv tx (prevIndex env pprev l) = .error f) := by
  unfold checkSpecialTxIn
  split_ifs with hreads
  · refine .bind ((getListForBlock_reads hkeyed hb).failing ?_) ?_
    · intro f m hm
      refine ⟨hm.1, fun l hl => ?_⟩
      simp [hm.2] at hl
    · intro l₀
      refine .ofExcept ?_ ?_
      · exact fun _ m hr hm => ⟨hm.1, fun l hl => ok_unique hm.2 hl ▸ hr⟩
      · exact fun f m hr hm => ⟨hm.1, fun l hl => ok_unique hm.2 hl ▸ hr⟩
  · rw [Bool.not_eq_true] at hreads
    have hsame : ∀ l, checkSpecialTx env.toEnv tx (prevIndex env pprev l) =
        checkSpecialTx env.toEnv tx (prevIndex env pprev {}) := fun l =>
      checkSpecialTx_of_not_readsList rfl rfl hreads
    refine .ofExcept ?_ ?_
    · exact fun _ m hr hm => ⟨hm, fun l _ => (hsame l).trans hr⟩
    · exact fun f m hr hm => ⟨hm, fun l _ => (hsame l).trans hr⟩

/-- All checks are reads. -/
theorem checkSpecialTxs_reads (hkeyed : Keyed env S m₀) (hb : S.mem pprev) (vtx : List Transaction) :
    Triple (Filled env S m₀) (vtx.forM fun tx => checkSpecialTxIn env pprev tx)
      (fun _ m => Filled env S m₀ m ∧ ∀ l, answer env m₀ pprev = .ok l →
        SpecialTxsPass env.toEnv vtx (prevIndex env pprev l))
      (fun _ m => Filled env S m₀ m ∧ ∀ l, answer env m₀ pprev = .ok l →
        ¬ SpecialTxsPass env.toEnv vtx (prevIndex env pprev l)) := by
  induction vtx with
  | nil => exact .pure fun m hm => ⟨hm, fun l _ tx htx => by cases htx⟩
  | cons tx vtx ih =>
    refine .bind (y := checkSpecialTxIn env pprev tx)
      ((checkSpecialTxIn_reads hkeyed hb tx).failing ?_) ?_
    · intro f m hm
      refine ⟨hm.1, fun l hl hpass => ?_⟩
      have hok := hpass tx (.head _)
      simp [hm.2 l hl] at hok
    · intro _ m ⟨hfilled, hcheck⟩
      refine (ih.conseq (fun _ h => h) ?_ ?_) m hfilled
      · intro _ m hm
        refine ⟨hm.1, fun l hl t ht => ?_⟩
        rcases mem_cons.mp ht with rfl | ht
        · exact hcheck l hl
        · exact hm.2 l hl t ht
      · exact fun _ m hm => ⟨hm.1, fun l hl hpass =>
          hm.2 l hl fun t ht => hpass t (.tail _ ht)⟩

/-- A registration of the block retires a legacy masternode: the lists are active, all special
transactions of the block pass, and the builder gets to it. -/
def Retires (env : ChainEnv) (m : Manager) (man : MasternodeMan) : BlockIndex → Prop
  | .genesis _ => False
  | .child pprev _ vtx => env.isDIP3Enforced (pprev.nHeight + 1) = true ∧
    ∃ l, answer env m pprev = .ok l ∧ SpecialTxsPass env.toEnv vtx (prevIndex env pprev l) ∧
      ∃ l₂, listBeforeTx env.toEnv vtx (prevIndex env pprev l) 0 = .ok l₂ ∧
        RetiresOne env.toEnv (prevIndex env pprev l) (pprev.nHeight + 1) vtx.tail l₂ man

/-- **Every observable masternode state is the same**: the lists that `GetListForBlock` returns,
the database and the legacy masternodes. -/
structure Unchanged (env : ChainEnv) (S : Blocks) (s s' : Manager × MasternodeMan) : Prop where
  lists : ∀ b, S.mem b →
    ((getListForBlock env b).exec s'.1).1 = ((getListForBlock env b).exec s.1).1
  evoDb : s'.1.evoDb = s.1.evoDb
  legacy : s'.2 = s.2

theorem exec_getListForBlock (hkeyed : Keyed env S m) {b} (hb : S.mem b) :
    ((getListForBlock env b).exec m).1 = answer env m b := by
  have hreads := getListForBlock_reads hkeyed hb m (.refl m)
  rcases hexec : (getListForBlock env b).exec m with ⟨f | l, m'⟩ <;>
    rw [hexec] at hreads <;> exact hreads.2.symm

theorem Filled.keyed (h : Filled env S m₀ m) (hkeyed : Keyed env S m₀) : Keyed env S m := by
  intro b hb l hl
  refine hkeyed.answerFor hb ?_
  rw [← h.answerFor_eq hb]
  exact answerFor_of_list hl

/-- A filled manager is as good as the one before. -/
theorem Filled.noneRetired_iff (h : Filled env S m₀ m) (hkeyed : Keyed env S m₀)
    {man'} : Unchanged env S (m₀, man) (m, man') ↔ man' = man := by
  refine ⟨fun hu => hu.legacy, fun heq => ⟨fun b hb => ?_, h.evoDb, heq⟩⟩
  rw [exec_getListForBlock (h.keyed hkeyed) hb, exec_getListForBlock hkeyed hb, answer,
    h.answerFor_eq hb, answer]

variable (clock man) in
/-- The legacy masternodes after the guarded part: one is gone exactly if the builder gets to
its registration. -/
theorem connectListRetiring_exec (hkeyed : Keyed env S m₀) (hfilled : Filled env S m₀ m)
    (hb : S.mem pprev) (h : Uint256) (vtx : List Transaction) (fJustCheck : Bool) :
    ∃ r m' man', (connectListRetiring env clock fJustCheck (.child pprev h vtx)).exec (m, man) =
        (r, (m', man')) ∧ (fJustCheck = true ∨ r.isOk = false → Filled env S m₀ m') ∧
      (man' = man ↔ ¬ ∃ l, answer env m₀ pprev = .ok l ∧
        ∃ l₂, listBeforeTx env.toEnv vtx (prevIndex env pprev l) 0 = .ok l₂ ∧
          RetiresOne env.toEnv (prevIndex env pprev l) (pprev.nHeight + 1) vtx.tail l₂ man) := by
  have hreads := getListForBlock_reads hkeyed hb m hfilled
  simp only [connectListRetiring, exec_bind, exec_onFst, exec_get, exec_onSnd]
  rcases hexec : (getListForBlock env pprev).exec m with ⟨f | l, m₁⟩ <;> rw [hexec] at hreads
  · refine ⟨.error f, m₁, man, rfl, fun _ => hreads.1, iff_of_true rfl ?_⟩
    rintro ⟨l, hl, -⟩
    simp [hreads.2] at hl
  · obtain ⟨hfilled₁, hanswer⟩ := hreads
    obtain ⟨man', hbuild, hman⟩ := buildNewListRetiring_exec env.toEnv clock
      (legacyMNObsolete env m₁) (prevIndex env pprev l) vtx man
    have hretires : man' = man ↔ ¬ ∃ l, answer env m₀ pprev = .ok l ∧
        ∃ l₂, listBeforeTx env.toEnv vtx (prevIndex env pprev l) 0 = .ok l₂ ∧
          RetiresOne env.toEnv (prevIndex env pprev l) (pprev.nHeight + 1) vtx.tail l₂ man := by
      rw [hman, hanswer]
      simp only [Except.ok.injEq, exists_eq_left']
      rfl
    dsimp only
    rw [hbuild]
    cases hlist : buildNewListFromBlock env.toEnv vtx (prevIndex env pprev l) with
    | error f => exact ⟨.error f, m₁, man', rfl, fun _ => hfilled₁, hretires⟩
    | ok newList =>
      cases fJustCheck with
      | true => exact ⟨.ok (), m₁, man', rfl, fun _ => hfilled₁, hretires⟩
      | false =>
        -- the list is read once more, and then stored
        have hagain := getListForBlock_reads hkeyed hb m₁ hfilled₁
        simp only [onlyWhen, Bool.not_false, if_true, exec_bind, exec_onFst,
          exec_modify]
        rcases hexec₂ : (getListForBlock env pprev).exec m₁ with ⟨f | oldList, m₂⟩ <;>
          rw [hexec₂] at hagain
        · exact ⟨.error f, m₂, man', rfl, fun _ => hagain.1, hretires⟩
        · refine ⟨.ok (), _, man', rfl, fun h => ?_, hretires⟩
          rcases h with h | h <;> cases h

/-- **When nothing changes.** A call that only checks, or that returns false, leaves every
observable masternode state unchanged exactly if no registration of the block retires a legacy
masternode. -/
theorem unchanged_iff (hkeyed : Keyed env S m) {b : BlockIndex} (hb : S.mem b) {fJustCheck : Bool}
    (hcall : fJustCheck = true ∨ ∃ reason,
      ((processSpecialTxsInBlock env clock b fJustCheck).exec (m, man)).1 =
        .error (.reject reason)) :
    Unchanged env S (m, man) ((processSpecialTxsInBlock env clock b fJustCheck).exec (m, man)).2 ↔
      ¬ Retires env m man b := by
  cases b with
  | genesis h => exact iff_of_true ⟨fun _ _ => rfl, rfl, rfl⟩ id
  | child pprev h vtx =>
    have hchecks := checkSpecialTxs_reads hkeyed (S.parent hb) vtx m (.refl m)
    simp only [processSpecialTxsInBlock, exec_bind, exec_forM_onFst] at hcall ⊢
    rcases hexec : (vtx.forM fun tx => checkSpecialTxIn env pprev tx).exec m with
      ⟨f | _, m₁⟩ <;> simp only [hexec] at hchecks hcall ⊢
    · refine iff_of_true ((hchecks.1.noneRetired_iff hkeyed).mpr rfl) ?_
      rintro ⟨-, l, hl, hpass, -⟩
      exact hchecks.2 l hl hpass
    · obtain ⟨hfilled, hpass⟩ := hchecks
      unfold processBlockRetiring at hcall ⊢
      cases henf : env.isDIP3Enforced (BlockIndex.child pprev h vtx).nHeight with
      | false =>
        simp only [Bool.not_false, if_true, exec_pure]
        refine iff_of_true ((hfilled.noneRetired_iff hkeyed).mpr rfl) ?_
        rintro ⟨hactive, -⟩
        cases henf.symm.trans hactive
      | true =>
        obtain ⟨r, m', man', hconnect, hfilled', hman⟩ :=
          connectListRetiring_exec clock man hkeyed hfilled (S.parent hb) h vtx fJustCheck
        simp only [henf, Bool.not_true, Bool.false_eq_true, if_false, exec_bind,
          exec_mapError, hconnect] at hcall ⊢
        have hretires : Retires env m man (.child pprev h vtx) ↔ ∃ l, answer env m pprev = .ok l ∧
            ∃ l₂, listBeforeTx env.toEnv vtx (prevIndex env pprev l) 0 = .ok l₂ ∧
              RetiresOne env.toEnv (prevIndex env pprev l) (pprev.nHeight + 1) vtx.tail l₂ man :=
          ⟨fun ⟨_, l, hl, _, hone⟩ => ⟨l, hl, hone⟩,
            fun ⟨l, hl, hone⟩ => ⟨henf, l, hl, hpass l hl, hone⟩⟩
        rw [hretires, ← hman]
        cases r with
        | error f => exact (hfilled' (.inr rfl)).noneRetired_iff hkeyed
        | ok _ =>
          cases fJustCheck with
          | true => exact (hfilled' (.inl rfl)).noneRetired_iff hkeyed
          | false =>
            rcases hcall with hcall | ⟨reason, hcall⟩ <;> cases hcall

/-- The blocks of a tree. -/
def BlockTree.blocks (T : BlockTree env) : Blocks := ⟨T.mem, T.parent, T.hash_injective⟩

end Manager

open Manager

namespace Sample

/-- Register the collateral of a legacy masternode. -/
def registerLegacy : Transaction :=
  { revoke with
    hash := 60, nType := .proReg, vin := [⟨⟨7, 6⟩, []⟩]
    extraPayload := some (putProRegPL
      { collateralOutpoint := ⟨2, 0⟩, keyIDOwner := 11, keyIDOperator := 12, keyIDVoting := 13,
        scriptPayout := p2pkh 14, inputsHash := 0 }) }

def legacyClock : MasternodeClock where
  adjustedTime := 2000
  removalSeconds := 500
  expirationSeconds := 400
  minPingSeconds := 60
  activeProtocol := 70000
  rejectV0 := false

/-- A legacy masternode that is enabled. -/
def legacyMasternode : Masternode where
  sigTime := 1000
  lastPing := some 1900
  protocolVersion := 70001
  nMessVersion := .hash

def legacyMan : MasternodeMan := (∅ : MasternodeMan).insert ⟨2, 0⟩ legacyMasternode

def otherMan : MasternodeMan := (∅ : MasternodeMan).insert ⟨9, 0⟩ legacyMasternode

theorem register_payload : getTxPayload getProRegPL register = some
    { collateralOutpoint := ⟨0, 0⟩, keyIDOwner := 1, keyIDOperator := 2, keyIDVoting := 3,
      scriptPayout := p2pkh 4, inputsHash := 0 } := by
  decide +kernel

def legacyBlock : BlockIndex := .child genesisBlock 170 [coinbase, registerLegacy]

def legacyTree : Manager.BlockTree regtestChain :=
  legacyBlock.tree (by decide +kernel) (by decide +kernel)
    (by unfold HashesIdentify HashesNonNull; decide +kernel)

theorem fresh_keyed {S} : Keyed regtestChain S {} := by
  intro b hb l hl
  cases hl

end Sample

open Sample

/-- Checking a registration leaves the masternodes with other collaterals alone. -/
theorem registerBlock_unchanged : ¬ Retires regtestChain {} otherMan registerBlock ∧
      Unchanged regtestChain spendTree.blocks ({}, otherMan)
        ((processSpecialTxsInBlock regtestChain legacyClock registerBlock
          true).exec ({}, otherMan)).2 := by
  have hnot : ¬ Retires regtestChain {} otherMan registerBlock := by
    rintro ⟨-, l, -, -, l₂, -, hone⟩
    rcases retiresOne_cons.mp hone with ⟨-, pl, hpl, hmem⟩ | ⟨l₃, -, hrest⟩
    · obtain rfl := Option.mem_unique hpl register_payload
      revert hmem
      decide +kernel
    · exact not_retiresOne_nil hrest
  have hmem : spendTree.mem registerBlock := mem_tree (by decide +kernel)
  exact ⟨hnot, (unchanged_iff fresh_keyed hmem (.inl rfl)).mpr hnot⟩

/-- **A check removes a legacy masternode.** The block registers its collateral and is only
checked; the masternode was enabled and is gone. -/
theorem legacyBlock_check_removes : Keyed regtestChain legacyTree.blocks {} ∧
      legacyTree.mem legacyBlock ∧ ((processSpecialTxsInBlock regtestChain legacyClock legacyBlock
        true).exec ({}, legacyMan)).1 = .ok () ∧ (legacyMan[(⟨2, 0⟩ : OutPoint)]?.map
        (·.getActiveState legacyClock)) = some .enabled ∧
      ((processSpecialTxsInBlock regtestChain legacyClock legacyBlock
        true).exec ({}, legacyMan)).2.2[(⟨2, 0⟩ : OutPoint)]? = none ∧
      ¬ Unchanged regtestChain legacyTree.blocks ({}, legacyMan)
        ((processSpecialTxsInBlock regtestChain legacyClock legacyBlock
          true).exec ({}, legacyMan)).2 := by
  have hgone : ((processSpecialTxsInBlock regtestChain legacyClock
      legacyBlock true).exec ({}, legacyMan)).2.2[(⟨2, 0⟩ : OutPoint)]? = none := by
    decide +kernel
  refine ⟨fresh_keyed, mem_tree (by decide +kernel), by decide +kernel, by decide +kernel, hgone,
    fun h => ?_⟩
  rw [h.legacy] at hgone
  revert hgone
  decide +kernel

end KmushiCoin
