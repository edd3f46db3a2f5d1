import KmushiCoin.Budget.VoteOrder
import KmushiCoin.Evo.MNListSound

/-!
# KmushiCoin.Budget.ForgedVotes

**Votes that are rejected for their signature.** The hash of a vote does not cover its signature,
and a vote whose hash was seen is dropped. The handlers look for the voter in the deterministic
list first and check the signature before they remember the vote; for a legacy masternode they
remember the vote first.

`rejected_votes_harmless_iff` says that a forged vote leaves the genuine one alone just when its
voter is in the deterministic list.
-/

namespace KmushiCoin

section
variable {V : Type} {kind : VoteKind V} {ctx : VoteContext} {book : VoteBook V} {vote : V}

/-- The verdict on the signature comes from one of the two lists, and only the legacy one has the
vote remembered. -/
theorem judgeVote_badSignature {remember}
    (h : judgeVote kind ctx vote = (remember, .error .badSignature)) :
    remember = !(ctx.mnList.getMNByCollateral ctx.serializeHash (kind.mnId vote)).isSome := by
  unfold judgeVote at h
  cases hdmn : ctx.mnList.getMNByCollateral ctx.serializeHash (kind.mnId vote) with
  | some dmn =>
    simp only [hdmn] at h
    split_ifs at h
    · cases h
      rfl
    · cases h
    · cases h
  | none =>
    simp only [hdmn] at h
    split at h
    · simp at h
    split_ifs at h
    · cases h
      rfl
    · cases h
    · cases h

theorem addOrUpdateVote_refusal {m} {refusal}
    (h : addOrUpdateVote kind ctx m vote = .error refusal) :
    refusal = .olderThanExisting ∨ refusal = .tooSoon ∨ refusal = .tooFarAhead := by
  unfold addOrUpdateVote at h
  cases hold : m[kind.mnId vote]? with
  | none =>
    simp only [hold] at h
    split_ifs at h
    cases h
    exact .inr (.inr rfl)
  | some old =>
    simp only [hold] at h
    split_ifs at h
    · cases h
      exact .inl rfl
    · cases h
      exact .inr (.inl rfl)
    · cases h
      exact .inr (.inr rfl)

namespace VoteBook

/-- An update refuses for the object or for the time of the vote. -/
theorem update_refusal {fromPeer} {refusal}
    (h : (book.update kind ctx fromPeer vote).1 = .error refusal) :
    refusal = .notFound ∨ refusal = .olderThanExisting ∨ refusal = .tooSoon ∨
      refusal = .tooFarAhead := by
  unfold update at h
  cases hobj : book.objects[kind.parent vote]? with
  | none =>
    simp only [hobj] at h
    split_ifs at h
    · cases h
      exact .inl rfl
    · cases h
      exact .inl rfl
  | some mapVotes =>
    simp only [hobj] at h
    cases hadd : addOrUpdateVote kind ctx mapVotes vote with
    | ok mapVotes' =>
      rw [hadd] at h
      cases h
    | error r =>
      rw [hadd] at h
      cases h
      exact .inr (addOrUpdateVote_refusal hadd)

/-- What a vote with a bad signature leaves. -/
theorem processVote_badSignature (h : (book.processVote kind ctx vote).1 = .error .badSignature) :
    book.seen[kind.hash vote]? = none ∧ (book.processVote kind ctx vote).2 =
        if (ctx.mnList.getMNByCollateral ctx.serializeHash (kind.mnId vote)).isSome then book
        else book.addSeen kind vote := by
  unfold processVote at h ⊢
  by_cases hseen : (book.seen[kind.hash vote]?).isSome
  · rw [if_pos hseen] at h
    cases h
  · rw [if_neg hseen] at h ⊢
    refine ⟨by simpa using hseen, ?_⟩
    rcases hjudge : judgeVote kind ctx vote with ⟨remember, verdict⟩
    rw [hjudge] at h
    cases remember with
    | false =>
      obtain rfl : verdict = .error .badSignature := h
      have hdmn := judgeVote_badSignature hjudge
      rw [if_pos (by simpa using hdmn.symm)]
    | true =>
      cases verdict with
      | error refusal =>
        obtain rfl : refusal = .badSignature := Except.error.inj h
        have hdmn := judgeVote_badSignature hjudge
        rw [if_neg (by simpa using hdmn.symm)]
      | ok u =>
        -- an authentic vote is never refused for its signature
        rcases update_refusal h with h | h | h | h <;> cases h

theorem processVote_alreadySeen (h : (book.seen[kind.hash vote]?).isSome) :
    book.processVote kind ctx vote = (.error .alreadySeen, book) := by
  rw [processVote, if_pos h]

variable (kind) in
/-- Votes that arrive one after the other, each in a context of its own. -/
def processAll (book : VoteBook V) (votes : List (VoteContext × V)) : VoteBook V :=
  votes.foldl (fun book e => (book.processVote kind e.1 e.2).2) book

variable (kind ctx) in
/-- **Harmless.** Whatever votes and contexts follow, an authentic vote with the same hash has the
same result, and leaves the same votes, as without the rejected one. -/
def Harmless (book : VoteBook V) (vote : V) : Prop :=
  ∀ (between : List (VoteContext × V)) (ctx' : VoteContext) (genuine : V),
    kind.hash genuine = kind.hash vote → Authentic kind ctx' genuine →
    (((book.processVote kind ctx vote).2.processAll kind between).processVote kind ctx' genuine) =
      (book.processAll kind between).processVote kind ctx' genuine

/-- A vote with a bad signature is harmless just when the signature was checked with the key of a
deterministic masternode. `hsign` gives the genuine vote: the holder of a key can sign. -/
theorem harmless_iff (h : (book.processVote kind ctx vote).1 = .error .badSignature)
    (hsign : ∀ key, ∃ genuine, kind.hash genuine = kind.hash vote ∧
      kind.mnId genuine = kind.mnId vote ∧ kind.checkSignature genuine key = true) :
    book.Harmless kind ctx vote ↔
      (ctx.mnList.getMNByCollateral ctx.serializeHash (kind.mnId vote)).isSome = true := by
  obtain ⟨hnew, hleft⟩ := processVote_badSignature h
  constructor
  · intro hharmless
    by_contra hdmn
    rw [if_neg hdmn] at hleft
    -- the genuine vote arrives while its voter is an enabled legacy masternode
    obtain ⟨genuine, hhash, hvoter, hsig⟩ := hsign 0
    let ctx' : VoteContext := { ctx with findMasternode := fun _ => some ⟨0, true⟩ }
    have hauth : Authentic kind ctx' genuine := by
      have hnone : ctx.mnList.getMNByCollateral ctx.serializeHash (kind.mnId genuine) = none := by
        rw [hvoter]
        simpa using hdmn
      simp [Authentic, judgeVote, ctx', hnone, hsig]
    have hsame := congrArg Prod.fst (hharmless [] ctx' genuine hhash hauth)
    have hadmits : book.Admits kind ctx' genuine := ⟨by rw [hhash]; exact hnew, hauth⟩
    have hseen : ((book.addSeen kind vote).seen[kind.hash genuine]?).isSome := by
      rw [hhash]
      simp [addSeen]
    simp only [processAll, List.foldl_nil, hleft, processVote_alreadySeen hseen,
      processVote_of_admits hadmits] at hsame
    rcases update_refusal hsame.symm with h | h | h | h <;> cases h
  · intro hdmn between ctx' genuine _ _
    rw [hleft, if_pos hdmn]

end VoteBook

end

/-- **Forged votes.** For votes on proposals and for votes on finalized budgets: a vote that is
rejected for its signature is harmless just when its voter is in the deterministic list at the tip.
`hsign` is what signatures are for: whoever holds a key can sign. -/
theorem rejected_votes_harmless_iff (crypto : VoteCrypto) (ctx : VoteContext)
    (hsign : ∀ hash key, ∃ vchSig, crypto.verifyHash hash key vchSig = true) :
    (∀ (book : VoteBook BudgetVote) (vote : BudgetVote),
      (processProposalVote crypto ctx book vote).1 = .error .badSignature →
      (book.Harmless (proposalVotes crypto) ctx vote ↔
        (ctx.mnList.getMNByCollateral ctx.serializeHash vote.vin.prevout).isSome = true)) ∧
    (∀ (book : VoteBook FinalizedBudgetVote) (vote : FinalizedBudgetVote),
      (processFinalizedBudgetVote crypto ctx book vote).1 = .error .badSignature →
      (book.Harmless (finalizedBudgetVotes crypto) ctx vote ↔
        (ctx.mnList.getMNByCollateral ctx.serializeHash vote.vin.prevout).isSome = true)) := by
  constructor
  · intro book vote h
    refine VoteBook.harmless_iff h fun key => ?_
    obtain ⟨vchSig, hverify⟩ := hsign (signedHash vote.nMessVersion
      (crypto.budgetVoteHash vote.vin vote.nProposalHash vote.nVote vote.nTime)
      (crypto.budgetVoteMessageHash vote.vin.prevout vote.nProposalHash vote.nVote vote.nTime)) key
    exact ⟨{ vote with vchSig }, rfl, rfl, hverify⟩
  · intro book vote h
    refine VoteBook.harmless_iff h fun key => ?_
    obtain ⟨vchSig, hverify⟩ := hsign (signedHash vote.nMessVersion
      (crypto.finalizedBudgetVoteHash vote.vin vote.nBudgetHash vote.nTime)
      (crypto.finalizedBudgetVoteMessageHash vote.vin.prevout vote.nBudgetHash vote.nTime)) key
    exact ⟨{ vote with vchSig }, rfl, rfl, hverify⟩

open Sample (voteCrypto voteContext budgetVote)

/-- A copy of the first masternode's vote with a wrong signature. -/
def Sample.forgedBudgetVote : BudgetVote := { budgetVote 1 1 1000 with vchSig := [] }

open Sample (forgedBudgetVote)

/-- The node of the sample, which knows one deterministic masternode as well. -/
def Sample.deterministicContext : VoteContext :=
  { voteContext with
    serializeHash := UniqueProperty.numbering
    mnList := DeterministicMNList.oneKeyList }

/-- A vote in the name of the deterministic masternode, without a signature. -/
def Sample.unsignedBudgetVote : BudgetVote := ⟨⟨⟨7, 0⟩, []⟩, 40, 1, 1000, [], .hash⟩

open Sample (deterministicContext unsignedBudgetVote)

/-- The vote in the name of the deterministic masternode is rejected and does no harm. -/
theorem unsignedBudgetVote_harmless :
    (processProposalVote voteCrypto deterministicContext (.knowing [40]) unsignedBudgetVote).1 =
        .error .badSignature ∧
      (VoteBook.knowing [40]).Harmless (proposalVotes voteCrypto) deterministicContext
        unsignedBudgetVote := by
  have hbad : (processProposalVote voteCrypto deterministicContext (.knowing [40])
      unsignedBudgetVote).1 = .error .badSignature := by decide +kernel
  refine ⟨hbad, ?_⟩
  rw [(rejected_votes_harmless_iff voteCrypto deterministicContext
    fun _ key => ⟨[UInt8.ofNat key], by simp [voteCrypto]⟩).1 _ _ hbad]
  decide +kernel

/-- **A forged message suppresses the genuine vote.** The copy is rejected for its signature. The
vote that is counted without it is dropped after it, in the same context. -/
theorem forgedBudgetVote_suppresses :
    (processProposalVote voteCrypto voteContext (.knowing [40]) forgedBudgetVote).1 =
        .error .badSignature ∧
      (processProposalVote voteCrypto voteContext (.knowing [40]) (budgetVote 1 1 1000)).1 =
        .ok () ∧ (processProposalVote voteCrypto voteContext
        (processProposalVote voteCrypto voteContext (.knowing [40]) forgedBudgetVote).2
        (budgetVote 1 1 1000)).1 = .error .alreadySeen := by
  decide +kernel

end KmushiCoin
