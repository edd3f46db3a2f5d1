import KmushiCoin.Evo.Payee

/-!
# KmushiCoin.Evo.Banned

**A masternode that cannot serve is banned.** The owner key and the voting key of a member are
never null; the address and the operator key are null only while it is banned. A registration
without address starts banned, a new operator key and a revocation null both and ban, and a
service update revives a member only when it has all its keys.

`served_of_chain` says it for the lists of a chain. The functions that choose masternodes for a
payment or a quorum run over the valid ones only, so they never choose a member without address or
operator key.
-/

namespace KmushiCoin

open Codec DeterministicMNList List Service

variable {env : Env} {l : DeterministicMNList} {s : DeterministicMNState} {d : DeterministicMN}

namespace DeterministicMNList

/-! ### Quorums -/

/-- The scores of the valid members that are confirmed; `sha256` hashes its two arguments in
sequence. -/
def calculateScores (sha256 : Uint256 → Uint256 → Uint256) (l : DeterministicMNList)
    (modifier : Uint256) : List (Nat × DeterministicMN) :=
  (l.validMNs.filter fun dmn => dmn.pdmnState.confirmedHash != 0).map fun dmn =>
    (ofLE (putUint256 (sha256 dmn.pdmnState.confirmedHashWithProRegTxHash modifier)), dmn)

/-- The order of the scores; equal ones are ordered by the collateral. -/
def scoreLess (a b : Nat × DeterministicMN) : Bool :=
  if a.1 = b.1 then compare a.2.collateralOutpoint b.2.collateralOutpoint == .lt
  else decide (a.1 < b.1)

/-- The members with the highest scores. -/
def calculateQuorum (sha256 : Uint256 → Uint256 → Uint256) (l : DeterministicMNList)
    (maxSize : Nat) (modifier : Uint256) : List DeterministicMN :=
  let scores := (l.calculateScores sha256 modifier).mergeSort fun a b => !scoreLess a b
  (scores.take (min maxSize scores.length)).map Prod.snd

theorem valid_of_mem_calculateQuorum {sha256 : Uint256 → Uint256 → Uint256} {maxSize : Nat}
    {modifier} (hd : d ∈ l.calculateQuorum sha256 maxSize modifier) :
    isMNValid d = true := by
  obtain ⟨score, hscore, rfl⟩ := mem_map.mp hd
  have hmem := mem_mergeSort.mp (mem_of_mem_take hscore)
  obtain ⟨dmn, hdmn, rfl⟩ := mem_map.mp hmem
  exact (mem_filter.mp (mem_filter.mp hdmn).1).2

end DeterministicMNList

/-! ### Who is banned -/

/-- The keys that only a registrar gives are set; the address and the operator key are set
unless the masternode is banned. -/
structure DeterministicMNState.Served (s : DeterministicMNState) : Prop where
  owner : s.keyIDOwner ≠ 0
  voting : s.keyIDVoting ≠ 0
  service : s.nPoSeBanHeight = -1 → s.addr ≠ null ∧ s.keyIDOperator ≠ 0

namespace DeterministicMNState.Served

theorem quiet {paid} {s'} (hs : s.SameIdentity paid s') (h : s.Served) : s'.Served := by
  refine ⟨hs.keyIDOwner ▸ h.owner, hs.keyIDVoting ▸ h.voting, fun hban => ?_⟩
  rw [hs.addr, hs.keyIDOperator]
  exact h.service (hs.nPoSeBanHeight ▸ hban)

/-- A state that is banned, or is banned now, needs neither address nor operator key. -/
theorem banned {nHeight} (hheight : nHeight ≠ -1) :
    (s.banIfNotBanned nHeight).nPoSeBanHeight ≠ -1 := by
  unfold banIfNotBanned
  split_ifs with hban
  · exact hheight
  · exact hban

variable {nHeight : Int32} {p : Uint256} {tx : Transaction} {prev : PrevIndex}

theorem update {f : DeterministicMNState → DeterministicMNState} (h : s.Served)
    (hnull : env.isValid null = false) (hheight : nHeight ≠ -1)
    (hpass : checkSpecialTx env tx prev = .ok ()) (hu : txUpdate nHeight tx = some (p, f)) :
    (f s).Served := by
  obtain ⟨pl, hchecked, -, rfl⟩ | ⟨pl, hchecked, -, rfl⟩ | ⟨pl, -, -, rfl⟩ :=
    txUpdate_passed hpass hu
  · have haddr : pl.addr ≠ null := fun heq => by
      have hvalid := hchecked.valid
      simp [heq, hnull] at hvalid
    dsimp only [ProUpServPL.newState]
    -- a revived masternode has its keys, an unbanned one had its operator key before
    split_ifs with hrevive
    · exact ⟨h.owner, h.voting, fun _ => ⟨haddr, hrevive.2.1⟩⟩
    · exact ⟨h.owner, h.voting, fun hban => ⟨haddr, (h.service hban).2⟩⟩
  · dsimp only [ProUpRegPL.newState]
    split_ifs with hkey
    · refine ⟨?_, hchecked.voting, fun hban => absurd hban (banned hheight)⟩
      simpa [resetOperatorFields] using h.owner
    · exact ⟨h.owner, hchecked.voting, fun hban => ⟨(h.service hban).1, hchecked.operator⟩⟩
  · refine ⟨by simpa using h.owner, ?_, fun hban => absurd hban (banned hheight)⟩
    unfold ProUpRevPL.newState banIfNotBanned
    split_ifs <;> exact h.voting

end DeterministicMNState.Served

/-- **A masternode without address or operator key is banned** and is chosen for no payment and no
quorum, in every list of a chain; those that are not banned have an address and all keys. The
height −1 is before every chain, and the null address is not valid. -/
theorem served_of_chain (hinj : Function.Injective env.serializeHash)
    (hnull : env.isValid null = false) (hstart : env.isDIP3Enforced (-1) = false)
    {txs : List Transaction} {h : Int32} (hl : ChainList env txs h l) :
    ∀ d ∈ l.members,
      (isMNPoSeBanned d = false → d.pdmnState.addr ≠ null ∧ d.pdmnState.keyIDOwner ≠ 0 ∧
        d.pdmnState.keyIDOperator ≠ 0 ∧ d.pdmnState.keyIDVoting ≠ 0) ∧
      (d.pdmnState.addr = null ∨ d.pdmnState.keyIDOperator = 0 →
        isMNPoSeBanned d = true ∧ l.getMNPayee ≠ some d ∧
        (∀ nCount, d ∉ l.getProjectedMNPayees nCount) ∧
        ∀ maxSize modifier, d ∉ l.calculateQuorum env.sha256 maxSize modifier) := by
  have hheight : ∀ {prev tx}, checkSpecialTx env tx prev = .ok () → tx.nType ≠ .normal →
      prev.nHeight + 1 ≠ -1 := by
    intro prev tx hpass htype heq
    have henf := checkSpecialTx_enforced hpass htype
    rw [heq, hstart] at henf
    cases henf
  obtain ⟨hwf, hserved⟩ := hl.forall_members (Q := fun d => d.pdmnState.Served) hinj
    (fun hs h => h.quiet hs.state)
    (fun {prev tx pl} _ hpass htype hpl => by
      have hchecked := proReg_checked hpass htype hpl
      refine ⟨hchecked.owner, hchecked.voting, fun hban => ⟨fun haddr => ?_, hchecked.operator⟩⟩
      have hbanned : (if pl.addr = null then prev.nHeight + 1 else -1) = -1 := hban
      exact hheight hpass (by simp [htype]) ((if_pos haddr).symm.trans hbanned))
    (fun hpass hu hd => by
      refine hd.update hnull (hheight hpass ?_) hpass hu
      obtain ⟨_, htype, -⟩ | ⟨_, htype, -⟩ | ⟨_, htype, -⟩ := txUpdate_cases hu <;> simp [htype])
  intro d hd
  have hs := hserved _ d (hwf.mem_members.mp hd)
  have hserves : isMNPoSeBanned d = false →
      d.pdmnState.addr ≠ null ∧ d.pdmnState.keyIDOperator ≠ 0 := fun hban =>
    hs.service (by simpa [isMNPoSeBanned] using hban)
  refine ⟨fun hban => ⟨(hserves hban).1, hs.owner, (hserves hban).2, hs.voting⟩, fun hnone => ?_⟩
  have hbanned : isMNPoSeBanned d = true := by
    by_contra hban
    obtain ⟨haddr, hoperator⟩ := hserves (by simpa using hban)
    exact hnone.elim haddr hoperator
  have hinvalid : isMNValid d ≠ true := by simp [isMNValid, hbanned]
  exact ⟨hbanned, fun hpay => hinvalid (mem_filter.mp (getMNPayee_mem hpay)).2,
    fun _ hmem => hinvalid (mem_sortedByLastPaid.mp (mem_of_mem_take hmem)).2,
    fun _ _ hmem => hinvalid (valid_of_mem_calculateQuorum hmem)⟩

namespace Sample

/-- The regression test network from height 0 on, without the null address. -/
def addressed : Env :=
  { regtest with isValid := (· != null), isDIP3Enforced := fun h => decide (0 ≤ h) }

/-- The masternode that is registered without address is banned and not paid. -/
theorem registered_banned :
    let l := (nextIndex addressed started 100 [coinbase, register]).mnList
    l.members ≠ [] ∧ ∀ d ∈ l.members, d.pdmnState.addr = null ∧ isMNPoSeBanned d = true ∧
      l.getMNPayee ≠ some d := by
  have hstart : ChainList addressed [] started.nHeight started.mnList := .start 90 9
  have hinj : Function.Injective addressed.serializeHash := serializeHash_injective
  have hpass : SpecialTxsPass addressed [coinbase, register] started := by decide +kernel
  have hserved := served_of_chain hinj rfl rfl (hstart.extend 100 hpass (by decide +kernel))
  have haddr : ∀ d ∈ (nextIndex addressed started 100 [coinbase, register]).mnList.members,
      d.pdmnState.addr = null := by decide +kernel
  refine ⟨by decide +kernel, fun d hd => ⟨haddr d hd, ?_⟩⟩
  obtain ⟨hbanned, hpayee, -⟩ := (hserved d hd).2 (Or.inl (haddr d hd))
  exact ⟨hbanned, hpayee⟩

end Sample

end KmushiCoin
