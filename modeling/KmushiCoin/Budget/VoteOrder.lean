import KmushiCoin.Budget.Votes

/-!
# KmushiCoin.Budget.VoteOrder

**In which order votes arrive.** Two questions about the votes of a node whose clock and masternode
lists do not change.

* The objects are known. Then the votes of an object are those of a register in which the latest
  value wins (`objects_processVotes`), and with votes of one masternode that are
  `budgetVoteUpdateMin` apart the order does not matter: `votes_converge`.
* The objects come in between. `Tracks` compares the node with one that knew the objects from the
  start: what the two have remembered is the same, and a vote that waits is the only one for its
  object. It is kept as long as no vote arrives for an object for which another one waits; then
  nothing is lost (`interleaved_votes_kept`).
-/

namespace KmushiCoin

open FMap LatestWins List VoteBook

/-! ### Known objects -/

section
variable {V : Type} (kind : VoteKind V) (ctx : VoteContext)

/-- A node that knows some objects and has seen no votes. -/
def VoteBook.knowing (objects : List Uint256) : VoteBook V :=
  { objects := objects.foldl (fun m h => m.insert h ∅) ∅ }

/-- The timely ones of some votes that are about an object. -/
def timelyOn (object : Uint256) (votes : List V) : List V :=
  votes.filter fun v => decide (kind.parent v = object ∧ Timely kind ctx v)

/-- Any two timely votes of a masternode on one object are far enough apart for the later one to
replace the earlier one. -/
def FarApart (votes : List V) : Prop :=
  ∀ v ∈ votes, ∀ w ∈ votes, kind.mnId v = kind.mnId w → kind.parent v = kind.parent w →
    Timely kind ctx v → Timely kind ctx w → v ≠ w → Replaces kind v w ∨ Replaces kind w v

/-- The vote of a masternode on an object that is the most recent of its timely ones. -/
def MostRecent (votes : List V) (object : Uint256) (mnId : OutPoint) (vote : V) : Prop :=
  Latest kind.mnId kind.nTime (timelyOn kind ctx object votes) mnId vote

/-- Among some votes, the hash of a vote tells its voter, its object and its time. -/
def HashIdentifies (votes : List V) : Prop :=
  ∀ v ∈ votes, ∀ w ∈ votes, kind.hash v = kind.hash w →
    kind.mnId v = kind.mnId w ∧ kind.parent v = kind.parent w ∧ kind.nTime v = kind.nTime w

end

section
variable {V : Type} {kind : VoteKind V} {ctx : VoteContext} {votes votes' : List V}
  {object : Uint256} {vote : V}

theorem VoteBook.get_knowing (objects : List Uint256) (h : Uint256) :
    (knowing objects : VoteBook V).objects[h]? = if h ∈ objects then some ∅ else none := by
  rw [knowing, get_foldl_insert, get_empty]

theorem VoteBook.knowing_keys (book : VoteBook V) (h : Uint256) :
    ((knowing book.objects.keys : VoteBook V).objects[h]?).isSome =
      (book.objects[h]?).isSome := by
  rw [get_knowing]
  by_cases hmem : h ∈ book.objects <;> simp [hmem]

theorem mem_timelyOn : vote ∈ timelyOn kind ctx object votes ↔
      vote ∈ votes ∧ kind.parent vote = object ∧ Timely kind ctx vote := by
  simp [timelyOn]

theorem timelyOn_concat (object : Uint256) (votes : List V) (v : V) :
    timelyOn kind ctx object (votes ++ [v]) = timelyOn kind ctx object votes ++
      if kind.parent v = object ∧ Timely kind ctx v then [v] else [] := by
  by_cases hv : kind.parent v = object ∧ Timely kind ctx v <;> simp [timelyOn, hv]

theorem Replaces.lt {v w : V} (h : Replaces kind v w) : kind.nTime v < kind.nTime w := by
  refine lt_of_le_of_ne h.1 fun heq => absurd h.2 ?_
  rw [heq, Int.sub_self]
  decide

theorem FarApart.spaced (h : FarApart kind ctx votes) (object : Uint256) :
    Spaced kind.mnId (Replaces kind) kind.nTime (timelyOn kind ctx object votes) := by
  have hcompare : ∀ v ∈ timelyOn kind ctx object votes, ∀ w ∈ timelyOn kind ctx object votes,
      kind.mnId v = kind.mnId w → v ≠ w → Replaces kind v w ∨ Replaces kind w v := by
    intro v hv w hw hid hne
    obtain ⟨hv, hvo, hvt⟩ := mem_timelyOn.mp hv
    obtain ⟨hw, hwo, hwt⟩ := mem_timelyOn.mp hw
    exact h v hv w hw hid (hvo.trans hwo.symm) hvt hwt hne
  refine ⟨fun v hv w hw hid htime => ?_, fun v hv w hw hid => ⟨Replaces.lt, fun hlt => ?_⟩⟩
  · by_contra hne
    rcases hcompare v hv w hw hid hne with hr | hr <;> exact absurd hr.lt (by omega)
  · exact (hcompare v hv w hw hid (by rintro rfl; exact lt_irrefl _ hlt)).resolve_right
      fun hr => lt_asymm hr.lt hlt

theorem FarApart.mono (h : FarApart kind ctx votes) (hsub : ∀ v ∈ votes', v ∈ votes) :
    FarApart kind ctx votes' :=
  fun v hv w hw => h v (hsub v hv) w (hsub w hw)

theorem HashIdentifies.mono (h : HashIdentifies kind votes) (hsub : ∀ v ∈ votes', v ∈ votes) :
    HashIdentifies kind votes' :=
  fun v hv w hw => h v (hsub v hv) w (hsub w hw)

namespace VoteBook

theorem processVotes_append (book : VoteBook V) (l l' : List V) :
    book.processVotes kind ctx (l ++ l') =
      (book.processVotes kind ctx l).processVotes kind ctx l' :=
  foldl_append

/-- An authentic vote is remembered. -/
theorem processVote_remembers (book : VoteBook V) (h : Authentic kind ctx vote) (x : Uint256) :
    ((book.processVote kind ctx vote).2.seen[x]?).isSome =
      ((book.seen[x]?).isSome || decide (kind.hash vote = x)) := by
  by_cases hadmits : book.Admits kind ctx vote
  · rw [processVote_of_admits hadmits, update_seen]
    by_cases hx : kind.hash vote = x
    · subst hx
      simp [addSeen]
    · simp [addSeen, Std.ExtTreeMap.getElem?_insertIfNew, hx]
  · have hseen : (book.seen[kind.hash vote]?).isSome = true := by
      by_contra hnone
      exact hadmits ⟨by simpa using hnone, h⟩
    have hsame : (book.processVote kind ctx vote).2 = book := by
      rw [processVote, if_pos hseen]
    rw [hsame]
    by_cases hx : kind.hash vote = x
    · rw [← hx, hseen]
      rfl
    · simp [hx]

/-- What is remembered are the votes so far. -/
theorem seen_processVotes (objects : List Uint256) (hauth : ∀ v ∈ votes, Authentic kind ctx v)
    (x : Uint256) : (((knowing objects).processVotes kind ctx votes).seen[x]?).isSome =
      votes.any fun v => decide (kind.hash v = x) := by
  induction votes using reverseRecOn with
  | nil => simp [processVotes, knowing]
  | append_singleton votes v ih =>
    rw [processVotes_append, any_append, ← ih fun w hw => hauth w (mem_append_left _ hw)]
    simpa [processVotes] using processVote_remembers _ (hauth v (by simp)) x

/-- **The votes of an object** are those of a register in which the latest value wins. -/
theorem objects_processVotes (objects : List Uint256) (hhash : HashIdentifies kind votes)
    (hauth : ∀ v ∈ votes, Authentic kind ctx v) (hfar : FarApart kind ctx votes)
    (hparent : ∀ v ∈ votes, kind.parent v ∈ objects) (object : Uint256) :
    ((knowing objects).processVotes kind ctx votes).objects[object]? = if object ∈ objects then
        some (putAll kind.mnId (Replaces kind) ∅ (timelyOn kind ctx object votes)) else none := by
  induction votes using reverseRecOn generalizing object with
  | nil => simp [processVotes, get_knowing, timelyOn]
  | append_singleton votes v ih =>
    have hsub : ∀ w ∈ votes, w ∈ votes ++ [v] := fun w hw => mem_append_left _ hw
    have hvmem : v ∈ votes ++ [v] := by simp
    have hauth' : ∀ w ∈ votes, Authentic kind ctx w := fun w hw => hauth w (hsub w hw)
    specialize ih (hhash.mono hsub) hauth' (hfar.mono hsub) fun w hw => hparent w (hsub w hw)
    have hseen := seen_processVotes objects hauth' (kind.hash v)
    rw [processVotes_append]
    set book := (knowing objects).processVotes kind ctx votes
    show (book.processVote kind ctx v).2.objects[object]? = _
    by_cases hadmits : book.Admits kind ctx v
    · have hknown := ih (kind.parent v)
      rw [if_pos (hparent v hvmem)] at hknown
      rw [processVote_known hadmits hknown, get_insert, timelyOn_concat]
      by_cases hobject : kind.parent v = object
      · subst hobject
        rw [if_pos rfl, if_pos (hparent v hvmem), store]
        by_cases htimely : Timely kind ctx v
        · rw [if_pos htimely, if_pos ⟨rfl, htimely⟩, putAll_append]
          rfl
        · rw [if_neg htimely, if_neg fun h => htimely h.2, append_nil]
      · have hnot : ¬ (kind.parent v = object ∧ Timely kind ctx v) := fun h => hobject h.1
        rw [if_neg hobject, if_neg hnot, append_nil]
        exact ih object
    · rw [(processVote_of_not_admits hadmits).1, ih]
      -- the hash was seen: the vote came before, or it is not timely anyway
      obtain ⟨w, hw, hhw⟩ : ∃ w ∈ votes, kind.hash w = kind.hash v := by
        have hsome : (book.seen[kind.hash v]?).isSome = true := by
          by_contra hnone
          exact hadmits ⟨by simpa using hnone, hauth v hvmem⟩
        rw [hseen] at hsome
        simpa using hsome
      obtain ⟨hid, hparent', htime⟩ := hhash w (hsub w hw) v hvmem hhw
      refine if_congr Iff.rfl (congrArg some ?_) rfl
      refine putAll_congr (hfar.spaced object) fun u => ?_
      rw [mem_timelyOn, mem_timelyOn, mem_append, mem_singleton]
      refine and_congr_left fun hu => ⟨Or.inl, fun hor => hor.elim id fun huv => ?_⟩
      subst huv
      by_contra hnot
      have hne : w ≠ u := fun heq => hnot (heq ▸ hw)
      have hwt : Timely kind ctx w := htime.trans_le hu.2
      rcases hfar w (hsub w hw) u hvmem hid hparent' hwt hu.2 hne with hr | hr <;>
        exact absurd hr.lt (by omega)

end VoteBook

/-- **Votes converge.** With the votes of each masternode on an object far enough apart, the node
ends up with the most recent timely one of each, and the order in which the votes come and how
often they come does not matter. -/
theorem VoteBook.converges (objects : List Uint256) (hhash : HashIdentifies kind votes)
    (hauth : ∀ v ∈ votes, Authentic kind ctx v) (hfar : FarApart kind ctx votes)
    (hparent : ∀ v ∈ votes, kind.parent v ∈ objects) :
    (∀ object m, ((knowing objects).processVotes kind ctx votes).objects[object]? = some m →
      ∀ mnId vote, m[mnId]? = some vote ↔ MostRecent kind ctx votes object mnId vote) ∧
      ∀ votes', (∀ v, v ∈ votes' ↔ v ∈ votes) →
        ((knowing objects).processVotes kind ctx votes').objects =
          ((knowing objects).processVotes kind ctx votes).objects := by
  refine ⟨fun object m hm mnId vote => ?_, fun votes' hmem => ext fun object => ?_⟩
  · rw [objects_processVotes objects hhash hauth hfar hparent] at hm
    split_ifs at hm with hobject
    cases hm
    exact latest_iff (hfar.spaced object)
  · rw [objects_processVotes objects hhash hauth hfar hparent,
      objects_processVotes objects (hhash.mono fun v hv => (hmem v).mp hv)
        (fun v hv => hauth v ((hmem v).mp hv)) (hfar.mono fun v hv => (hmem v).mp hv)
        fun v hv => hparent v ((hmem v).mp hv)]
    refine if_congr Iff.rfl (congrArg some ?_) rfl
    refine putAll_congr (hfar.spaced object) fun v => ?_
    rw [mem_timelyOn, mem_timelyOn, hmem]

end

/-- The votes on the proposals after some messages, on a node that knows the proposals. -/
def proposalsAfter (crypto : VoteCrypto) (ctx : VoteContext) (proposals : List Uint256)
    (votes : List BudgetVote) : FMap Uint256 (FMap OutPoint BudgetVote) :=
  (votes.foldl (fun book v => (processProposalVote crypto ctx book v).2)
    (VoteBook.knowing proposals)).objects

/-- The votes on the finalized budgets after some messages, on a node that knows the budgets. -/
def finalizedBudgetsAfter (crypto : VoteCrypto) (ctx : VoteContext) (budgets : List Uint256)
    (votes : List FinalizedBudgetVote) : FMap Uint256 (FMap OutPoint FinalizedBudgetVote) :=
  (votes.foldl (fun book v => (processFinalizedBudgetVote crypto ctx book v).2)
    (VoteBook.knowing budgets)).objects

/-- **Budget votes converge.** For votes on proposals as well as for votes on finalized budgets: if
they are authentic, about known objects, and those of one masternode on one object are far enough
apart, then the stored vote of a masternode is its most recent one that is not too far ahead of
the clock; and any other order of delivery, with any redeliveries, leaves the same votes and the
same tallies. -/
theorem budget_votes_converge (crypto : VoteCrypto) (ctx : VoteContext) (objects : List Uint256) :
    (∀ votes : List BudgetVote, HashIdentifies (proposalVotes crypto) votes →
      (∀ v ∈ votes, Authentic (proposalVotes crypto) ctx v ∧ v.nProposalHash ∈ objects) →
      FarApart (proposalVotes crypto) ctx votes →
      (∀ (object : Uint256) m, (proposalsAfter crypto ctx objects votes)[object]? = some m →
        ∀ (mnId : OutPoint) vote, m[mnId]? = some vote ↔
          MostRecent (proposalVotes crypto) ctx votes object mnId vote) ∧
      ∀ votes' : List BudgetVote, (∀ v, v ∈ votes' ↔ v ∈ votes) →
        ∀ (object : Uint256) m m', (proposalsAfter crypto ctx objects votes)[object]? = some m →
          (proposalsAfter crypto ctx objects votes')[object]? = some m' →
          m' = m ∧ ∀ nVote, getVoteCount m' nVote = getVoteCount m nVote) ∧
    ∀ votes : List FinalizedBudgetVote, HashIdentifies (finalizedBudgetVotes crypto) votes →
      (∀ v ∈ votes, Authentic (finalizedBudgetVotes crypto) ctx v ∧ v.nBudgetHash ∈ objects) →
      FarApart (finalizedBudgetVotes crypto) ctx votes →
      (∀ (object : Uint256) m, (finalizedBudgetsAfter crypto ctx objects votes)[object]? = some m →
        ∀ (mnId : OutPoint) vote, m[mnId]? = some vote ↔
          MostRecent (finalizedBudgetVotes crypto) ctx votes object mnId vote) ∧
      ∀ votes' : List FinalizedBudgetVote, (∀ v, v ∈ votes' ↔ v ∈ votes) →
        finalizedBudgetsAfter crypto ctx objects votes' =
          finalizedBudgetsAfter crypto ctx objects votes := by
  constructor
  · intro votes hhash hvotes hfar
    obtain ⟨hrecent, hsame⟩ := converges objects hhash (fun v hv => (hvotes v hv).1) hfar
      fun v hv => (hvotes v hv).2
    refine ⟨hrecent, fun votes' hmem object m m' hm hm' => ?_⟩
    have heq : m' = m := by
      have hget := congrArg (fun objects => objects[object]?) (hsame votes' hmem)
      exact Option.some.inj (hm'.symm.trans (hget.trans hm))
    exact ⟨heq, fun nVote => by rw [heq]⟩
  · intro votes hhash hvotes hfar
    exact converges objects hhash (fun v hv => (hvotes v hv).1) hfar
      fun v hv => (hvotes v hv).2

namespace Sample

/-- Hashes that tell the sample votes apart, and signatures that repeat the key. -/
def voteCrypto : VoteCrypto where
  budgetVoteHash vin object nVote nTime :=
    Fin.ofNat _ (vin.prevout.n.toNat + 10 * object.val + 1000 * nVote.toNat + 10000 * nTime.toNat)
  finalizedBudgetVoteHash vin object nTime :=
    Fin.ofNat _ (vin.prevout.n.toNat + 10 * object.val + 10000 * nTime.toNat)
  budgetVoteMessageHash _ _ _ _ := 0
  finalizedBudgetVoteMessageHash _ _ _ := 0
  verifyHash _ key vchSig := vchSig == [UInt8.ofNat key]

/-- A synced node at time 100000 with legacy masternodes, whose key is the index of their
collateral. -/
def voteContext : VoteContext where
  getTime := 100000
  isSynced := true
  serializeHash _ := 0
  mnList := {}
  findMasternode o := if o.hash = 5 then some ⟨Fin.ofNat _ o.n.toNat, true⟩ else none

/-- A signed vote of a masternode on proposal 40; 1 is yes, 2 is no. -/
def budgetVote (mn nVote : UInt32) (nTime : Int) : BudgetVote :=
  ⟨⟨⟨5, mn⟩, []⟩, 40, nVote, nTime, [UInt8.ofNat mn.toNat], .hash⟩

/-- Two votes of a masternode that are far apart, and one of another masternode. -/
def spacedVotes : List BudgetVote := [budgetVote 1 1 1000, budgetVote 2 1 1000, budgetVote 1 2 5000]

end Sample

open Sample (voteCrypto voteContext budgetVote spacedVotes)

/-- The sample votes meet the conditions; in every order the later vote is the one that stays. -/
theorem spacedVotes_converge : FarApart (proposalVotes voteCrypto) voteContext spacedVotes ∧
      ∀ votes : List BudgetVote, (∀ v, v ∈ votes ↔ v ∈ spacedVotes) →
        ∀ m, (proposalsAfter voteCrypto voteContext [40] votes)[(40 : Uint256)]? = some m →
          m[(⟨5, 1⟩ : OutPoint)]? = some (budgetVote 1 2 5000) := by
  have hfar : FarApart (proposalVotes voteCrypto) voteContext spacedVotes := by
    unfold FarApart
    decide +kernel
  refine ⟨hfar, fun votes hmem m' hm' => ?_⟩
  obtain ⟨hrecent, hsame⟩ := (budget_votes_converge voteCrypto voteContext [40]).1 spacedVotes
    (by unfold HashIdentifies; decide +kernel) (by unfold Authentic; decide +kernel) hfar
  have hsome : (proposalsAfter voteCrypto voteContext [40] spacedVotes)[(40 : Uint256)]?.isSome =
      true := by decide +kernel
  obtain ⟨m, hm⟩ := Option.isSome_iff_exists.mp hsome
  rw [(hsame votes hmem 40 m m' hm hm').1, hrecent 40 m hm]
  unfold MostRecent Latest
  decide +kernel

/-- **Votes that are too close do not converge.** The masternode votes yes and, 100 seconds later,
no: the node keeps whichever vote comes first, so in the order of their times the older one. -/
theorem close_votes_diverge : (∀ v ∈ [budgetVote 1 1 1000, budgetVote 1 2 1100],
      Authentic (proposalVotes voteCrypto) voteContext v ∧
        Timely (proposalVotes voteCrypto) voteContext v) ∧
      (proposalsAfter voteCrypto voteContext [40]
        [budgetVote 1 1 1000, budgetVote 1 2 1100])[(40 : Uint256)]?.bind
          (fun m => m[(⟨5, 1⟩ : OutPoint)]?) = some (budgetVote 1 1 1000) ∧
      (proposalsAfter voteCrypto voteContext [40]
        [budgetVote 1 2 1100, budgetVote 1 1 1000])[(40 : Uint256)]?.bind
          (fun m => m[(⟨5, 1⟩ : OutPoint)]?) = some (budgetVote 1 2 1100) := by
  unfold Authentic
  decide +kernel

/-! ### Objects in between -/

section
variable {V : Type} {kind : VoteKind V} {ctx : VoteContext} {book ref : VoteBook V} {vote : V}

namespace VoteBook

variable (kind ctx) in
/-- The votes of an object with the one that still waits. -/
def settle (m : FMap OutPoint V) : Option V → FMap OutPoint V
  | none => m
  | some v => store kind ctx m v

variable {m : FMap OutPoint V} {o : Uint256}

theorem settle_of_late {waiting} (h : ∀ v, waiting = some v → ¬ Timely kind ctx v)
    : settle kind ctx m waiting = m := by
  cases waiting with
  | none => rfl
  | some v => exact store_of_not_timely (h v rfl)

variable (kind ctx) in
/-- **The node tracks one that knew the objects before**: the same votes are remembered, a vote
that waits is filed under its object, and an object has the votes that it has there as soon as the
one that waits is settled. -/
structure Tracks (book ref : VoteBook V) : Prop where
  seen : book.seen = ref.seen
  keyed : All (fun o v => kind.parent v = o) book.orphans
  known : ∀ (o : Uint256) m, book.objects[o]? = some m →
    ref.objects[o]? = some (settle kind ctx m book.orphans[o]?)
  unknown : ∀ o : Uint256, book.objects[o]? = none →
    ref.objects[o]? = none ∨ ref.objects[o]? = some (settle kind ctx ∅ book.orphans[o]?)

variable (kind ctx) in
/-- No vote waits for a known object, unless it is too far ahead to be stored. -/
def Settled (book : VoteBook V) : Prop :=
  ∀ (o : Uint256) m v, book.objects[o]? = some m → book.orphans[o]? = some v →
    ¬ Timely kind ctx v

/-! ### The pass over the votes that wait -/

theorem retry_known (hparent : kind.parent vote = o) (h : book.objects[o]? = some m) :
    retry kind ctx book (o, vote) =
      { book with
        objects := book.objects.insert o (store kind ctx m vote)
        orphans := if (addOrUpdateVote kind ctx m vote).isOk then book.orphans.erase o
          else book.orphans } := by
  subst hparent
  unfold retry update
  rw [h]
  dsimp only
  cases hadd : addOrUpdateVote kind ctx m vote with
  | error refusal =>
    simp only [store_of_error hadd, Except.isOk, Except.toBool, Bool.false_eq_true, if_false]
    rw [← alter_some, alter_eq_self h]
  | ok m' => simp [store_of_ok hadd, Except.isOk, Except.toBool]

theorem retry_unknown (hparent : kind.parent vote = o) (h : book.objects[o]? = none)
    : retry kind ctx book (o, vote) = book := by
  subst hparent
  simp [retry, update, h]

variable (ctx) in
/-- The retries of some votes change only what belongs to their objects. -/
theorem foldl_retry_frame (book : VoteBook V) {l : List (Uint256 × V)}
    (hparent : ∀ e ∈ l, kind.parent e.2 = e.1) (ho : ∀ e ∈ l, e.1 ≠ o) :
    (l.foldl (retry kind ctx) book).objects[o]? = book.objects[o]? ∧
      (l.foldl (retry kind ctx) book).orphans[o]? = book.orphans[o]? := by
  induction l generalizing book with
  | nil => exact ⟨rfl, rfl⟩
  | cons e l ih =>
    obtain ⟨k, v⟩ := e
    rw [forall_mem_cons] at hparent ho
    have hrest := ih (retry kind ctx book (k, v)) hparent.2 ho.2
    rw [foldl_cons, hrest.1, hrest.2]
    cases hk : book.objects[k]? with
    | none =>
      rw [retry_unknown hparent.1 hk]
      exact ⟨rfl, rfl⟩
    | some m =>
      rw [retry_known hparent.1 hk]
      refine ⟨get_insert_ne ho.1, ?_⟩
      dsimp only
      split_ifs
      · exact get_erase_ne ho.1
      · rfl

theorem foldl_retry_seen (l : List (Uint256 × V)) :
    (l.foldl (retry kind ctx) book).seen = book.seen := by
  induction l generalizing book with
  | nil => rfl
  | cons e l ih =>
    rw [foldl_cons, ih]
    have hseen := update_seen kind ctx false book e.2
    unfold retry
    rcases hupdate : book.update kind ctx false e.2 with ⟨_ | _, book'⟩ <;>
      rw [hupdate] at hseen <;> exact hseen

/-- **The pass, object by object.** A known object gets the vote that waits for it, and the vote
waits on if it is refused; nothing happens for an unknown object. -/
theorem checkOrphanVotes_at (hkeyed : All (fun o v => kind.parent v = o) book.orphans)
    (o : Uint256) : (book.checkOrphanVotes kind ctx).objects[o]? =
        (book.objects[o]?).map (settle kind ctx · book.orphans[o]?) ∧
      (book.checkOrphanVotes kind ctx).orphans[o]? =
        (book.orphans[o]?).filter fun v => !(book.objects[o]?).any fun m =>
          (addOrUpdateVote kind ctx m v).isOk := by
  have hparent : ∀ e ∈ book.orphans.toList, kind.parent e.2 = e.1 :=
    fun e he => hkeyed (mem_toList.mp he)
  unfold checkOrphanVotes
  cases hwaiting : book.orphans[o]? with
  | none =>
    have hnot : ∀ e ∈ book.orphans.toList, e.1 ≠ o := by
      rintro e he rfl
      cases hwaiting.symm.trans (mem_toList.mp he)
    obtain ⟨hobjects, horphans⟩ := foldl_retry_frame ctx book hparent hnot
    rw [hobjects, horphans, hwaiting]
    simp [settle]
  | some v =>
    -- the entry of the object, and the others before and after it
    obtain ⟨l₁, l₂, hsplit⟩ := append_of_mem (mem_toList.mpr hwaiting)
    have hkeys := nodup_keys book.orphans
    rw [hsplit] at hparent hkeys ⊢
    rw [map_append, map_cons, nodup_append] at hkeys
    have hne₁ : ∀ e ∈ l₁, e.1 ≠ o := fun e he =>
      hkeys.2.2 e.1 (mem_map_of_mem he) o (.head _)
    have hne₂ : ∀ e ∈ l₂, e.1 ≠ o := fun e he heq =>
      (nodup_cons.mp hkeys.2.1).1 (mem_map.mpr ⟨e, he, heq⟩)
    have hbefore := foldl_retry_frame ctx book
      (fun e he => hparent e (mem_append_left _ he)) hne₁
    rw [foldl_append, foldl_cons]
    set book₁ := l₁.foldl (retry kind ctx) book
    have hafter := foldl_retry_frame ctx (retry kind ctx book₁ (o, v))
      (fun e he => hparent e (mem_append_right _ (.tail _ he))) hne₂
    have hv : kind.parent v = o := hkeyed hwaiting
    rw [hafter.1, hafter.2]
    cases hobject : book.objects[o]? with
    | none =>
      rw [retry_unknown hv (hbefore.1.trans hobject), hbefore.1, hbefore.2, hobject, hwaiting]
      simp [Option.filter_some]
    | some m =>
      rw [retry_known hv (hbefore.1.trans hobject)]
      refine ⟨by simp [settle], ?_⟩
      dsimp only
      split_ifs with hok
      · simp [Option.filter_some, hok]
      · rw [hbefore.2, hwaiting]
        simp [Option.filter_some, hok]

/-! ### Keeping track -/

namespace Tracks

/-- A node that starts tracks one that knows some objects. -/
theorem init (objects : List Uint256) : Tracks kind ctx {} (knowing objects) := by
  refine ⟨rfl, All.empty, fun o m hm => by simp at hm, fun o _ => ?_⟩
  rw [get_knowing]
  split_ifs
  · exact .inr (by simp [settle])
  · exact .inl rfl

variable (h : Tracks kind ctx book ref) (hsettled : book.Settled kind ctx)
include h

/-- A new object, which the other node knew before. -/
theorem addObject (hnew : book.objects[o]? = none) (hknown : (ref.objects[o]?).isSome) :
    Tracks kind ctx (book.addObject o) ref where
  seen := h.seen
  keyed := h.keyed
  known o' m hm := by
    dsimp only [VoteBook.addObject] at hm ⊢
    rcases of_get_insert hm with ⟨rfl, rfl⟩ | ⟨-, hm⟩
    · refine (h.unknown o hnew).resolve_left fun hnone => ?_
      simp [hnone] at hknown
    · exact h.known o' m hm
  unknown o' ho' := by
    dsimp only [VoteBook.addObject] at ho' ⊢
    rw [get_insert] at ho'
    split_ifs at ho' with heq
    exact h.unknown o' ho'

/-- The pass settles what waits for objects that are new. -/
theorem checkOrphanVotes
    (hnew : ∀ (o : Uint256) m v, book.objects[o]? = some m → book.orphans[o]? = some v →
      ¬ Timely kind ctx v ∨ m = ∅) : Tracks kind ctx (book.checkOrphanVotes kind ctx) ref ∧
      (book.checkOrphanVotes kind ctx).Settled kind ctx := by
  -- a vote that waits on for a known object is too far ahead
  have hlate : ∀ (o : Uint256) m v, book.objects[o]? = some m →
      (book.checkOrphanVotes kind ctx).orphans[o]? = some v →
      book.orphans[o]? = some v ∧ ¬ Timely kind ctx v := by
    intro o m v hm hv
    rw [(checkOrphanVotes_at h.keyed o).2, hm, Option.filter_eq_some_iff] at hv
    refine ⟨hv.1, fun htimely => ?_⟩
    rcases hnew o m v hm hv.1 with hnot | rfl
    · exact hnot htimely
    · obtain ⟨m', hm'⟩ := addOrUpdateVote_empty htimely
      simp [hm', Except.isOk, Except.toBool] at hv
  refine ⟨⟨?_, fun o v hv => ?_, fun o m hm => ?_, fun o ho => ?_⟩, fun o m v hm hv => ?_⟩
  · exact (foldl_retry_seen _).trans h.seen
  · rw [(checkOrphanVotes_at h.keyed o).2, Option.filter_eq_some_iff] at hv
    exact h.keyed hv.1
  · rw [(checkOrphanVotes_at h.keyed o).1, Option.map_eq_some_iff] at hm
    obtain ⟨m₀, hm₀, rfl⟩ := hm
    rw [h.known o m₀ hm₀]
    cases hv : (book.checkOrphanVotes kind ctx).orphans[o]? with
    | none => rfl
    | some v => exact congrArg some (store_of_not_timely (hlate o m₀ v hm₀ hv).2).symm
  · rw [(checkOrphanVotes_at h.keyed o).1, Option.map_eq_none_iff] at ho
    have hwaits : (book.checkOrphanVotes kind ctx).orphans[o]? = book.orphans[o]? := by
      rw [(checkOrphanVotes_at h.keyed o).2, ho]
      cases book.orphans[o]? <;> simp [Option.filter_some]
    rw [hwaits]
    exact h.unknown o ho
  · rw [(checkOrphanVotes_at h.keyed o).1, Option.map_eq_some_iff] at hm
    obtain ⟨m₀, hm₀, rfl⟩ := hm
    exact (hlate o m₀ v hm₀ hv).2

include hsettled

/-- Settled objects have the same votes in both nodes. -/
theorem agree (hm : book.objects[o]? = some m) : ref.objects[o]? = some m := by
  rw [h.known o m hm, settle_of_late fun v hv => hsettled o m v hm hv]

/-- So they agree if the other node knows no more objects. -/
theorem objects_eq (hknown : ∀ o : Uint256, (ref.objects[o]?).isSome → (book.objects[o]?).isSome) :
    book.objects = ref.objects := by
  refine ext fun o => ?_
  cases hm : book.objects[o]? with
  | some m => exact (h.agree hsettled hm).symm
  | none =>
    have hnone := mt (hknown o) (by simp [hm])
    exact (by simpa using hnone : ref.objects[o]? = none).symm

/-- A vote goes to a known object in both nodes, or it becomes the one that waits. -/
theorem processVote (hsynced : ctx.isSynced = true)
    (hfree : (book.objects[kind.parent vote]?).isSome ∨ book.orphans[kind.parent vote]? = none ∨
      (book.seen[kind.hash vote]?).isSome) :
    Tracks kind ctx (book.processVote kind ctx vote).2 (ref.processVote kind ctx vote).2 ∧
      (book.processVote kind ctx vote).2.Settled kind ctx := by
  have hseen : (book.processVote kind ctx vote).2.seen = (ref.processVote kind ctx vote).2.seen :=
    processVote_seen h.seen
  have hiff : ref.Admits kind ctx vote ↔ book.Admits kind ctx vote := by
    unfold Admits
    rw [h.seen]
  by_cases hadmits : book.Admits kind ctx vote
  · have hadmits' := hiff.mpr hadmits
    have hobjects := objects_processVote hsynced hadmits
    have hobjects' := objects_processVote hsynced hadmits'
    cases hobject : book.objects[kind.parent vote]? with
    | some m =>
      -- the votes that wait stay, and the one for this object is too far ahead
      have horphans : (book.processVote kind ctx vote).2.orphans = book.orphans := by
        rw [processVote_known hadmits hobject]
        rfl
      have hlate : (book.processVote kind ctx vote).2.Settled kind ctx := by
        intro o m' v hm' hv
        rw [hobjects] at hm'
        rw [horphans] at hv
        split_ifs at hm' with ho
        · exact hsettled o m v (ho ▸ hobject) hv
        · exact hsettled o m' v hm' hv
      refine ⟨⟨hseen, horphans ▸ h.keyed, fun o m' hm' => ?_, fun o ho' => ?_⟩, hlate⟩
      · rw [settle_of_late fun v hv => hlate o m' v hm' hv, hobjects']
        rw [hobjects] at hm'
        split_ifs at hm' ⊢ with ho
        · obtain ⟨m₀, hm₀, rfl⟩ := Option.map_eq_some_iff.mp hm'
          rw [h.agree hsettled hm₀]
          rfl
        · exact h.agree hsettled hm'
      · rw [hobjects] at ho'
        rw [hobjects', horphans]
        split_ifs at ho' ⊢ with ho
        · cases Option.map_eq_none_iff.mp ho' ▸ ho ▸ hobject
        · exact h.unknown o ho'
    | none =>
      have hnone : book.orphans[kind.parent vote]? = none := by
        rcases hfree with hsome | hnone | hsome
        · simp [hobject] at hsome
        · exact hnone
        · simp [hadmits.1] at hsome
      have horphans : (book.processVote kind ctx vote).2.orphans =
          book.orphans.insert (kind.parent vote) vote := by
        rw [processVote_unknown hsynced hadmits hobject]
      have hsame : ∀ o : Uint256, (book.processVote kind ctx vote).2.objects[o]? = book.objects[o]? := by
        intro o
        rw [hobjects]
        split_ifs with ho
        · rw [← ho, hobject]
          rfl
        · rfl
      have hne : ∀ (o : Uint256) m, book.objects[o]? = some m → kind.parent vote ≠ o := by
        rintro o m hm rfl
        cases hobject.symm.trans hm
      refine ⟨⟨hseen, ?_, fun o m hm => ?_, fun o ho' => ?_⟩, fun o m v hm hv => ?_⟩
      · rw [horphans]
        exact h.keyed.insert rfl
      · rw [hsame] at hm
        rw [hobjects', horphans, if_neg (hne o m hm), get_insert_ne (hne o m hm)]
        exact h.known o m hm
      · rw [hsame] at ho'
        rw [hobjects', horphans]
        by_cases ho : kind.parent vote = o
        · subst ho
          rw [if_pos rfl, get_insert_self]
          rcases h.unknown _ hobject with hr | hr
          · exact .inl (by rw [hr]; rfl)
          · rw [hr, hnone]
            exact .inr rfl
        · rw [if_neg ho, get_insert_ne ho]
          exact h.unknown o ho'
      · rw [hsame] at hm
        rw [horphans, get_insert_ne (hne o m hm)] at hv
        exact hsettled o m v hm hv
  · have hadmits' := mt hiff.mp hadmits
    obtain ⟨hobjects, horphans⟩ := processVote_of_not_admits hadmits
    obtain ⟨hobjects', -⟩ := processVote_of_not_admits hadmits'
    refine ⟨⟨hseen, horphans ▸ h.keyed, ?_, ?_⟩, ?_⟩
    · simpa only [hobjects, hobjects', horphans] using h.known
    · simpa only [hobjects, hobjects', horphans] using h.unknown
    · simpa only [Settled, hobjects, horphans] using hsettled

/-- A new object and the pass after it. -/
theorem accept (hnew : book.objects[o]? = none) (hknown : (ref.objects[o]?).isSome) :
    Tracks kind ctx ((book.addObject o).checkOrphanVotes kind ctx) ref ∧
      ((book.addObject o).checkOrphanVotes kind ctx).Settled kind ctx := by
  refine (h.addObject hnew hknown).checkOrphanVotes fun o' m v hm hv => ?_
  rw [show (book.addObject o).objects = book.objects.insert o ∅ from rfl, get_insert] at hm
  split_ifs at hm with heq
  · exact .inr (Option.some.inj hm).symm
  · exact .inl (hsettled o' m v hm hv)

end Tracks

variable (kind ctx) in
/-- **The votes of one kind in a run.** They come one after the other, in between there are new
objects and passes over the votes that wait, and a vote for an unknown object finds no other one
waiting. -/
inductive Takes : VoteBook V → List V → VoteBook V → Prop
  | nil {book : VoteBook V} : Takes book [] book
  | vote {book book' : VoteBook V} {v : V} {votes : List V} :
      ((book.objects[kind.parent v]?).isSome ∨ book.orphans[kind.parent v]? = none ∨
        (book.seen[kind.hash v]?).isSome) →
      Takes (book.processVote kind ctx v).2 votes book' → Takes book (v :: votes) book'
  | object {book book' : VoteBook V} {o : Uint256} {votes : List V} : book.objects[o]? = none →
      Takes ((book.addObject o).checkOrphanVotes kind ctx) votes book' → Takes book votes book'
  | pass {book book' : VoteBook V} {votes : List V} :
      Takes (book.checkOrphanVotes kind ctx) votes book' → Takes book votes book'

namespace Takes

variable {book' : VoteBook V} {votes : List V}

/-- No object is forgotten. -/
theorem knows (h : Takes kind ctx book votes book') (ho : (book.objects[o]?).isSome) :
    (book'.objects[o]?).isSome := by
  induction h with
  | nil => exact ho
  | vote _ _ ih => exact ih ((processVote_isSome _ o).trans ho)
  | object _ _ ih =>
    exact ih ((checkOrphanVotes_isSome _ o).trans (by rw [addObject_isSome, ho, Bool.or_true]))
  | pass _ ih => exact ih ((checkOrphanVotes_isSome _ o).trans ho)

/-- The whole run, if the other node knows the objects that it ends with. -/
theorem tracks (hsynced : ctx.isSynced = true) (h : Takes kind ctx book votes book')
    (htracks : Tracks kind ctx book ref) (hsettled : book.Settled kind ctx)
    (hknown : ∀ o : Uint256, (book'.objects[o]?).isSome = (ref.objects[o]?).isSome) :
    book'.objects = (ref.processVotes kind ctx votes).objects := by
  induction h generalizing ref with
  | nil => exact htracks.objects_eq hsettled fun o ho => (hknown o).trans ho
  | vote hfree _ ih =>
    obtain ⟨htracks, hsettled⟩ := htracks.processVote hsettled hsynced hfree
    exact ih htracks hsettled fun o => (hknown o).trans (processVote_isSome ref o).symm
  | @object _ _ o _ hnew hrest ih =>
    have hself := hrest.knows ((checkOrphanVotes_isSome _ o).trans
      (by rw [addObject_isSome, decide_eq_true rfl, Bool.true_or]))
    obtain ⟨htracks, hsettled⟩ := htracks.accept hsettled hnew ((hknown o).symm.trans hself)
    exact ih htracks hsettled hknown
  | pass _ ih =>
    obtain ⟨htracks, hsettled⟩ := htracks.checkOrphanVotes fun o m v hm hv =>
      .inl (hsettled o m v hm hv)
    exact ih htracks hsettled hknown

/-- From the start of the node the votes stored are those of a node that knew the objects. -/
theorem kept (hsynced : ctx.isSynced = true) (h : Takes kind ctx {} votes book) :
    book.objects = ((knowing book.objects.keys).processVotes kind ctx votes).objects :=
  h.tracks hsynced (Tracks.init _) (fun o m v hm => by simp at hm)
    fun o => (knowing_keys book o).symm

end Takes

end VoteBook

end

/-! ### Runs with both kinds of objects -/

/-- The votes of a node on proposals and on finalized budgets. -/
structure BudgetVotes where
  proposals : VoteBook BudgetVote := {}
  budgets : VoteBook FinalizedBudgetVote := {}

/-- The checks of `AddProposal` and `AddFinalizedBudget` before an object is added: its own data,
its collateral on the chain, and, for a budget, the winning proposals by the votes so far. -/
structure ObjectChecks where
  acceptsProposal : Uint256 → Bool
  acceptsBudget : VoteBook BudgetVote → Uint256 → Bool

/-- The messages. -/
inductive BudgetMessage
  | mprop (nHash : Uint256)
  | mvote (vote : BudgetVote)
  | fbs (nHash : Uint256)
  | fbvote (vote : FinalizedBudgetVote)

namespace BudgetVotes

section
variable (crypto : VoteCrypto) (ctx : VoteContext) (checks : ObjectChecks)

/-- `CheckOrphanVotes`. -/
def checkOrphanVotes (st : BudgetVotes) : BudgetVotes where
  proposals := st.proposals.checkOrphanVotes (proposalVotes crypto) ctx
  budgets := st.budgets.checkOrphanVotes (finalizedBudgetVotes crypto) ctx

variable (st : BudgetVotes)

def processProposal (nHash : Uint256) : BudgetVotes :=
  if (st.proposals.objects[nHash]?).isSome then st
  else if !checks.acceptsProposal nHash then st
  else checkOrphanVotes crypto ctx { st with proposals := st.proposals.addObject nHash }

def processFinalizedBudget (nHash : Uint256) : BudgetVotes :=
  if (st.budgets.objects[nHash]?).isSome then st
  else if !checks.acceptsBudget st.proposals nHash then st
  else checkOrphanVotes crypto ctx { st with budgets := st.budgets.addObject nHash }

def step : BudgetMessage → BudgetVotes
  | .mprop nHash => st.processProposal crypto ctx checks nHash
  | .mvote vote => { st with proposals := (processProposalVote crypto ctx st.proposals vote).2 }
  | .fbs nHash => st.processFinalizedBudget crypto ctx checks nHash
  | .fbvote vote => { st with budgets := (processFinalizedBudgetVote crypto ctx st.budgets vote).2 }

/-- **The condition of a step.** A vote that arrives for an unknown object finds no other vote
waiting for that object (unless it was seen before). -/
def NoneWaits : BudgetMessage → Prop
  | .mvote vote =>
    (st.proposals.objects[vote.nProposalHash]?).isSome ∨
      st.proposals.orphans[vote.nProposalHash]? = none ∨
      (st.proposals.seen[(proposalVotes crypto).hash vote]?).isSome
  | .fbvote vote =>
    (st.budgets.objects[vote.nBudgetHash]?).isSome ∨
      st.budgets.orphans[vote.nBudgetHash]? = none ∨
      (st.budgets.seen[(finalizedBudgetVotes crypto).hash vote]?).isSome
  | .mprop _ | .fbs _ => True

/-- The votes on proposals among some messages. -/
def mvotes (messages : List BudgetMessage) : List BudgetVote :=
  messages.filterMap fun | .mvote vote => some vote | _ => none

/-- The votes on finalized budgets among some messages. -/
def fbvotes (messages : List BudgetMessage) : List FinalizedBudgetVote :=
  messages.filterMap fun | .fbvote vote => some vote | _ => none

end

section
variable {crypto : VoteCrypto} {ctx : VoteContext} {checks : ObjectChecks} {st : BudgetVotes}

/-- A run of the messages is a run of the votes of each kind. -/
theorem foldl_takes {messages}
    (hnone : GuardedRun.Allows (step crypto ctx checks) (NoneWaits crypto) st messages) :
    st.proposals.Takes (proposalVotes crypto) ctx (mvotes messages)
        (messages.foldl (step crypto ctx checks) st).proposals ∧
      st.budgets.Takes (finalizedBudgetVotes crypto) ctx (fbvotes messages)
        (messages.foldl (step crypto ctx checks) st).budgets := by
  induction messages generalizing st with
  | nil => exact ⟨.nil, .nil⟩
  | cons message messages ih =>
    have hrest := ih hnone.2
    rw [foldl_cons]
    cases message with
    | mvote vote => exact ⟨.vote hnone.1 hrest.1, hrest.2⟩
    | fbvote vote => exact ⟨hrest.1, .vote hnone.1 hrest.2⟩
    | mprop nHash =>
      rw [step, processProposal] at hrest ⊢
      split_ifs at hrest ⊢ with hknown haccepts
      iterate 2 exact hrest
      exact ⟨.object (by simpa using hknown) hrest.1, .pass hrest.2⟩
    | fbs nHash =>
      rw [step, processFinalizedBudget] at hrest ⊢
      split_ifs at hrest ⊢ with hknown haccepts
      iterate 2 exact hrest
      exact ⟨.pass hrest.1, .object (by simpa using hknown) hrest.2⟩

end

/-- **No early vote is lost**, as long as no vote arrives for an unknown object for which another
vote waits. Then, however votes and objects are interleaved, the votes stored at the end are those
of a node that knew the objects from the start. -/
theorem interleaved_votes_kept (crypto : VoteCrypto) {ctx : VoteContext} (checks : ObjectChecks)
    (hsynced : ctx.isSynced = true) (messages : List BudgetMessage)
    (hnone : GuardedRun.Allows (step crypto ctx checks) (NoneWaits crypto) {} messages) :
    (messages.foldl (step crypto ctx checks) {}).proposals.objects = proposalsAfter crypto ctx
          (messages.foldl (step crypto ctx checks) {}).proposals.objects.keys (mvotes messages) ∧
      (messages.foldl (step crypto ctx checks) {}).budgets.objects =
        finalizedBudgetsAfter crypto ctx
          (messages.foldl (step crypto ctx checks) {}).budgets.objects.keys (fbvotes messages) := by
  obtain ⟨hproposals, hbudgets⟩ := foldl_takes hnone
  exact ⟨hproposals.kept hsynced, hbudgets.kept hsynced⟩

end BudgetVotes

namespace Sample

open BudgetVotes (step mvotes)

/-- Every proposal and every budget passes its checks. -/
def lenientChecks : ObjectChecks := ⟨fun _ => true, fun _ _ => true⟩

/-- The node after some messages. -/
def afterMessages (messages : List BudgetMessage) : BudgetVotes :=
  messages.foldl (step voteCrypto voteContext lenientChecks) {}

/-- Two masternodes vote on proposal 40 before it arrives. -/
def earlyVotes : List BudgetMessage :=
  [.mvote (budgetVote 1 1 1000), .mvote (budgetVote 2 1 1000), .mprop 40]

/-- One masternode votes before the proposal arrives and one after it. -/
def aroundVotes : List BudgetMessage :=
  [.mvote (budgetVote 1 1 1000), .mprop 40, .mvote (budgetVote 2 1 1000)]

end Sample

namespace BudgetVotes

open Sample (lenientChecks afterMessages earlyVotes aroundVotes)

/-- One vote waits for the proposal, and both are stored. -/
theorem aroundVotes_kept : (afterMessages aroundVotes).proposals.objects =
      proposalsAfter voteCrypto voteContext (afterMessages aroundVotes).proposals.objects.keys
        (mvotes aroundVotes) := by
  refine (interleaved_votes_kept voteCrypto lenientChecks rfl aroundVotes ?_).1
  exact ⟨Or.inr (Or.inl (by decide +kernel)), trivial, Or.inl (by decide +kernel), trivial⟩

/-- **An early vote is lost.** The second vote for the unknown proposal takes the place of the
first one, and a redelivery of the first one is ignored: the proposal ends up with one vote
instead of two. -/
theorem earlyVotes_lost :
    (∀ v ∈ mvotes earlyVotes, Authentic (proposalVotes voteCrypto) voteContext v ∧
        Timely (proposalVotes voteCrypto) voteContext v) ∧
      (afterMessages (earlyVotes ++ earlyVotes)).proposals.objects[(40 : Uint256)]?.map
        (getVoteCount · 1) = some 1 ∧
      (proposalsAfter voteCrypto voteContext [40] (mvotes (earlyVotes ++ earlyVotes)))[
        (40 : Uint256)]?.map (getVoteCount · 1) = some 2 := by
  unfold Authentic
  decide +kernel

end BudgetVotes

end KmushiCoin
