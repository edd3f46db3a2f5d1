import KmushiCoin.Lib.Runs
import KmushiCoin.Masternode.Collaterals

/-!
# KmushiCoin.Masternode.Announcements

**What a broadcast is bound to.** A broadcast names a collateral, is signed over other fields, and
is remembered under a hash of two of these.

* An entry has the fields that somebody signed, but not for its collateral: whoever relays a
  broadcast can put another outpoint into it (`Sample.announcement_moved`). When an outpoint belongs
  to a key only if it is the one that the key signed for, every entry is **authentic**.
* A broadcast with a hash that was seen is dropped. Two broadcasts of one key and one second, or one
  broadcast and an altered copy, **suppress each other** (`Sample.announcement_suppressed`).
  Otherwise a broadcast reads and writes the entries of its own collateral and its ping only, so the
  order of deliveries does not matter.
-/

namespace KmushiCoin

open MasternodeBroadcast FMap MasternodeLists

section
variable (params : MasternodeParams) (crypto : BroadcastCrypto)

/-! ### Signed fields -/

namespace MasternodeBroadcast

/-- What the signature is made over. -/
def signedData (mnb : MasternodeBroadcast) : SignedMasternodeData :=
  match mnb.nMessVersion with
  | .hash =>
    .broadcastHash mnb.nMessVersion mnb.addr mnb.sigTime mnb.pubKeyCollateralAddress
      mnb.pubKeyMasternode mnb.protocolVersion
  | .strmess =>
    .broadcastMessage mnb.addr mnb.sigTime (crypto.getID mnb.pubKeyCollateralAddress)
      (crypto.getID mnb.pubKeyMasternode) mnb.protocolVersion

/-- The collateral of a broadcast belongs to its key: some output of the transaction pays the key,
or the entry has the key already. -/
def Belongs (ctx : BroadcastContext) (st : MasternodeLists) (mnb : MasternodeBroadcast) : Prop :=
  mnb.isInputAssociatedWithPubkey params crypto ctx = true ∨
    ∃ e, st.mapMasternodes[mnb.vin.prevout]? = some e ∧
      e.pubKeyCollateralAddress = mnb.pubKeyCollateralAddress

variable {params crypto} {ctx : BroadcastContext} {mnb : MasternodeBroadcast}

theorem checkSignature_of_basicChecks (h : mnb.basicChecks params crypto ctx = none) :
    crypto.verify (crypto.getID mnb.pubKeyCollateralAddress) (mnb.signedData crypto) mnb.vchSig =
      true := by
  unfold basicChecks at h
  split_ifs at h with _ _ _ _ _ _ hsignature
  exact show mnb.checkSignature crypto = true by simpa using hsignature

end MasternodeBroadcast

/-! ### Who signed for what -/

section
variable (signed : OutPoint → KeyID → SignedMasternodeData → Prop)

/-- Only the holder of a key makes signatures that verify; each one is for some collateral. -/
def Unforgeable : Prop :=
  ∀ keyID data vchSig, crypto.verify keyID data vchSig = true → ∃ o, signed o keyID data

/-- What an entry says was signed for its collateral. -/
def MasternodeLists.SignedFor (o : OutPoint) (e : MasternodeBroadcast) : Prop :=
  signed o (crypto.getID e.pubKeyCollateralAddress) (e.signedData crypto)

/-- **The condition of a step.** The collateral that a broadcast names belongs to its key only if it
is the one that the signature was made for. -/
def MasternodeLists.NamesSigned (st : MasternodeLists) : MasternodeMessage → Prop
  | .mnb ctx mnb => mnb.Belongs params crypto ctx st →
      ∀ o, signed o (crypto.getID mnb.pubKeyCollateralAddress) (mnb.signedData crypto) →
        o = mnb.vin.prevout
  | .mnp _ _ => True

end

end

namespace MasternodeLists

variable {params : MasternodeParams} {crypto : BroadcastCrypto}
  {signed : OutPoint → KeyID → SignedMasternodeData → Prop}

theorem SignedFor.congr {o} {b b'} (h : SignedFor crypto signed o b)
    (hfields : b'.fields = b.fields) : SignedFor crypto signed o b' := by
  simp only [fields, Prod.mk.injEq] at hfields
  obtain ⟨haddr, hkey, hversion, htime, hcollateral, hmess⟩ := hfields
  unfold SignedFor signedData at h ⊢
  rwa [haddr, hkey, hversion, htime, hcollateral, hmess]

theorem step_signedFor (hunforgeable : Unforgeable crypto signed) {st : MasternodeLists}
    {message : MasternodeMessage} (hnames : st.NamesSigned params crypto signed message)
    {o : OutPoint} {e' : LegacyMasternode}
    (he' : (st.step params crypto message).mapMasternodes[o]? = some e') :
    (∃ e, st.mapMasternodes[o]? = some e ∧ e'.fields = e.fields) ∨
    ∃ ctx mnb, message = .mnb ctx mnb ∧ mnb.vin.prevout = o ∧ e'.fields = mnb.fields ∧
      SignedFor crypto signed o mnb := by
  obtain hold | ⟨ctx, mnb, rfl, rfl, hfields, hbasic, hkey⟩ := step_inv he'
  · exact .inl hold
  · refine .inr ⟨ctx, mnb, rfl, rfl, hfields, ?_⟩
    have hbelongs : mnb.Belongs params crypto ctx st := hkey.symm.imp_left And.left
    obtain ⟨o, hsigned⟩ :=
      hunforgeable _ _ _ (checkSignature_of_basicChecks hbasic)
    rwa [← hnames hbelongs o hsigned]

/-- **Authentic entries.** In every run of `mnb` and `mnp` messages in which a collateral belongs to
a key only if the key signed for it, every entry was signed for its collateral, and the address, the
masternode key, the protocol version and the time of an entry change, or an entry appears, only with
a broadcast that was signed for the collateral of the entry. -/
theorem entries_authentic (params : MasternodeParams) (crypto : BroadcastCrypto)
    (signed : OutPoint → KeyID → SignedMasternodeData → Prop)
    (hunforgeable : Unforgeable crypto signed) (st : MasternodeLists)
    (hrun : GuardedRun (step params crypto) (NamesSigned params crypto signed) {} st) :
    (∀ (o : OutPoint) (e : LegacyMasternode), st.mapMasternodes[o]? = some e →
      SignedFor crypto signed o e.toMasternodeBroadcast) ∧
    ∀ message, st.NamesSigned params crypto signed message →
      ∀ (o : OutPoint) (e' : LegacyMasternode),
        (st.step params crypto message).mapMasternodes[o]? = some e' →
        (∃ e, st.mapMasternodes[o]? = some e ∧ e'.fields = e.fields) ∨
        ∃ ctx mnb, message = .mnb ctx mnb ∧ mnb.vin.prevout = o ∧ e'.fields = mnb.fields ∧
          SignedFor crypto signed o mnb := by
  refine ⟨?_, fun message hnames o e' he' => step_signedFor hunforgeable hnames he'⟩
  refine hrun.invariant (P := fun st => ∀ (o : OutPoint) (e : LegacyMasternode),
    st.mapMasternodes[o]? = some e → SignedFor crypto signed o e.toMasternodeBroadcast) ?_ ?_
  · intro o e he
    simp at he
  · intro st message ih hnames o e' he'
    obtain ⟨e, he, hfields⟩ | ⟨ctx, mnb, -, -, hfields, hsigned⟩ :=
      step_signedFor hunforgeable hnames he'
    · exact (ih o e he).congr hfields
    · exact hsigned.congr hfields

end MasternodeLists

/-! ### The order of deliveries -/

/-- The entries that a broadcast reads and writes. -/
def MasternodeBroadcast.Touches (mnb : MasternodeBroadcast) (o : OutPoint) : Prop :=
  o = mnb.vin.prevout ∨ o = mnb.lastPing.vin.prevout

namespace MasternodeLists

theorem isSome_insertIfNew (m : FMap Uint256 MasternodeBroadcast) (k a : Uint256)
    (v : MasternodeBroadcast) :
    (m.insertIfNew k v)[a]?.isSome = (decide (k = a) || m[a]?.isSome) := by
  rw [get_insertIfNew]
  by_cases hk : k = a
  · cases m[a]? <;> simp [hk]
  · simp [hk]

/-- Two states agree on some entries, and on which of some hashes were seen. -/
structure AgreeOn (P : OutPoint → Prop) (H : Uint256 → Prop) (st st' : MasternodeLists) : Prop where
  entry : ∀ o, P o → st'.mapMasternodes[o]? = st.mapMasternodes[o]?
  seen : ∀ h, H h → st'.mapSeenMasternodeBroadcast[h]?.isSome =
    st.mapSeenMasternodeBroadcast[h]?.isSome

variable {P Q : OutPoint → Prop} {H K : Uint256 → Prop} {st st' st'' : MasternodeLists}

theorem AgreeOn.refl (st : MasternodeLists) : AgreeOn P H st st :=
  ⟨fun _ _ => rfl, fun _ _ => rfl⟩

theorem AgreeOn.trans (h : AgreeOn P H st st') (h' : AgreeOn P H st' st'') : AgreeOn P H st st'' :=
  ⟨fun o ho => (h'.entry o ho).trans (h.entry o ho), fun k hk => (h'.seen k hk).trans (h.seen k hk)⟩

/-- **A local call**: from states that agree on `P` and `H` it leads to states that agree, and it
leaves `Q` and `K` as they are. -/
structure Local (P Q : OutPoint → Prop) (H K : Uint256 → Prop) (st st' r r' : MasternodeLists) :
    Prop where
  agree : AgreeOn P H r r'
  frame : AgreeOn Q K st r

section
variable (params : MasternodeParams) (crypto : BroadcastCrypto) (ctx : BroadcastContext)
  {mnb : MasternodeBroadcast} {mnp : MasternodePing} (h : AgreeOn P H st st')
include h

theorem local_refl : Local P Q H K st st' st st' := ⟨h, .refl st⟩

/-- The list is written at one outpoint. -/
theorem local_entries {m m'}
    (hm : ∀ o, P o → m'[o]? = m[o]?) (hframe : ∀ o, Q o → m[o]? = st.mapMasternodes[o]?) :
    Local P Q H K st st' { st with mapMasternodes := m } { st' with mapMasternodes := m' } :=
  ⟨⟨hm, h.seen⟩, hframe, fun _ _ => rfl⟩

theorem local_ping (hP : P mnp.vin.prevout) (hQ : ∀ o, Q o → o ≠ mnp.vin.prevout) (nDos : Int)
    (avail time : Bool) : (mnp.checkAndUpdate params crypto ctx nDos avail time st').1 =
        (mnp.checkAndUpdate params crypto ctx nDos avail time st).1 ∧
      Local P Q H K st st' (mnp.checkAndUpdate params crypto ctx nDos avail time st).2
        (mnp.checkAndUpdate params crypto ctx nDos avail time st').2 := by
  -- the entry is written, and copies of the ping go to broadcasts that were seen
  have hset : ∀ pmn, Local P Q H K st st' (st.setLastPing crypto mnp pmn)
      (st'.setLastPing crypto mnp pmn) := by
    intro pmn
    refine ⟨⟨fun o ho => ?_, fun k hk => ?_⟩, fun o ho => get_insert_ne (hQ o ho).symm,
      fun k _ => ?_⟩
    · simp only [setLastPing, get_insert, h.entry o ho]
    · have hseen := h.seen k hk
      simp only [setLastPing, get_alter]
      split_ifs with heq
      · subst heq
        simpa using hseen
      · exact hseen
    · simp only [setLastPing, get_alter]
      split_ifs with heq
      · subst heq
        simp
      · rfl
  unfold MasternodePing.checkAndUpdate
  rw [h.entry _ hP]
  cases mnp.basicChecks params ctx with
  | some nDos => exact ⟨rfl, local_refl h⟩
  | none =>
    cases st.mapMasternodes[mnp.vin.prevout]? with
    | none => exact ⟨rfl, local_refl h⟩
    | some pmn =>
      dsimp only
      split_ifs
      all_goals first
        | exact ⟨rfl, local_refl h⟩
        | exact ⟨rfl, hset pmn⟩

variable (hP : ∀ o, mnb.Touches o → P o) (hQ : ∀ o, Q o → ¬ mnb.Touches o)
include hP

theorem checkPing_eq :
    mnb.checkPing params crypto ctx st' = mnb.checkPing params crypto ctx st := by
  unfold checkPing
  rw [(local_ping params crypto ctx (Q := fun _ => False) (K := fun _ => False) h (hP _ (.inr rfl))
    (by simp) 0 false true).1]

include hQ

theorem local_update (pmn : LegacyMasternode) :
    Local P Q H K st st' (mnb.updateFromNewBroadcast params crypto ctx pmn st)
      (mnb.updateFromNewBroadcast params crypto ctx pmn st') := by
  have hown : ∀ o, Q o → o ≠ mnb.vin.prevout := fun o ho heq => hQ o ho (.inl heq)
  have hping : ∀ {s s' : MasternodeLists}, AgreeOn P H s s' →
      Local P Q H K s s' (mnb.updatePing crypto s) (mnb.updatePing crypto s') := by
    intro s s' hs
    refine ⟨⟨fun o ho => ?_, hs.seen⟩, fun o ho => ?_, fun _ _ => rfl⟩
    · simp only [updatePing, get_alter]
      split_ifs with heq
      · subst heq
        rw [hs.entry _ ho]
      · exact hs.entry o ho
    · simp only [updatePing, get_alter, if_neg (hown o ho).symm]
  unfold updateFromNewBroadcast
  by_cases hnewer : pmn.sigTime < mnb.sigTime
  · rw [if_pos hnewer, if_pos hnewer]
    dsimp only
    obtain ⟨hfields, hframe⟩ : Local P Q H K st st' { st with
          mapMasternodes := st.mapMasternodes.insert mnb.vin.prevout (mnb.updateFields pmn) }
        { st' with
          mapMasternodes := st'.mapMasternodes.insert mnb.vin.prevout (mnb.updateFields pmn) } :=
      local_entries h (fun o ho => by simp only [get_insert, h.entry o ho])
        fun o ho => get_insert_ne (hown o ho).symm
    obtain ⟨hsame, hchecked⟩ := local_ping params crypto ctx (Q := Q) (K := K) hfields
      (hP _ (.inr rfl)) (fun o ho heq => hQ o ho (.inr heq)) 0 false false
    rw [hsame]
    split_ifs
    · exact ⟨(hping hfields).agree, hframe.trans (hping hfields).frame⟩
    · exact ⟨(hping hchecked.agree).agree,
        (hframe.trans hchecked.frame).trans (hping hchecked.agree).frame⟩
    · exact ⟨hchecked.agree, hframe.trans hchecked.frame⟩
  · rw [if_neg hnewer, if_neg hnewer]
    exact local_refl h

theorem local_checkAndUpdate :
    (mnb.checkAndUpdate params crypto ctx st').1 = (mnb.checkAndUpdate params crypto ctx st).1 ∧
      Local P Q H K st st' (mnb.checkAndUpdate params crypto ctx st).2
        (mnb.checkAndUpdate params crypto ctx st').2 := by
  unfold checkAndUpdate
  cases mnb.basicChecks params crypto ctx with
  | some nDos => exact ⟨rfl, local_refl h⟩
  | none =>
    dsimp only
    rw [checkPing_eq params crypto ctx h hP, h.entry _ (hP _ (.inl rfl))]
    by_cases hping : (!(mnb.checkPing params crypto ctx st).1) = true
    · rw [if_pos hping, if_pos hping]
      exact ⟨rfl, local_refl h⟩
    rw [if_neg hping, if_neg hping]
    cases st.mapMasternodes[mnb.vin.prevout]? with
    | none => exact ⟨rfl, local_refl h⟩
    | some pmn =>
      dsimp only
      split_ifs
      · exact ⟨rfl, local_refl h⟩
      · exact ⟨rfl, local_refl h⟩
      · exact ⟨rfl, local_update params crypto ctx h hP hQ pmn⟩
      · exact ⟨rfl, local_refl h⟩

variable (hH : H (mnb.getHash crypto)) (hK : ∀ k, K k → k ≠ mnb.getHash crypto)

omit hP hQ in
include hK in
theorem local_seen : Local P Q H K st st'
      ⟨st.mapMasternodes, st.mapSeenMasternodeBroadcast.insertIfNew (mnb.getHash crypto) mnb,
        st.mapSeenMasternodePing⟩
      ⟨st'.mapMasternodes, st'.mapSeenMasternodeBroadcast.insertIfNew (mnb.getHash crypto) mnb,
        st'.mapSeenMasternodePing⟩ := by
  refine ⟨⟨h.entry, fun k hk => ?_⟩, fun _ _ => rfl, fun k hk => ?_⟩
  · rw [isSome_insertIfNew, isSome_insertIfNew, h.seen k hk]
  · rw [isSome_insertIfNew, decide_eq_false (hK k hk).symm, Bool.false_or]

include hK

theorem local_checkInputsAndAdd :
    Local P Q H K st st' (mnb.checkInputsAndAdd params crypto ctx st).2
      (mnb.checkInputsAndAdd params crypto ctx st').2 := by
  have hagree : ∀ o, P o → (st'.mapMasternodes.erase mnb.vin.prevout)[o]? =
      (st.mapMasternodes.erase mnb.vin.prevout)[o]? := by
    intro o ho
    simp only [get_erase, h.entry o ho]
  have hframe : ∀ o, Q o → (st.mapMasternodes.erase mnb.vin.prevout)[o]? = st.mapMasternodes[o]? :=
    fun o ho => get_erase_ne fun heq => hQ o ho (.inl heq.symm)
  have herase : Local P Q H K st st'
      { st with mapMasternodes := st.mapMasternodes.erase mnb.vin.prevout }
      { st' with mapMasternodes := st'.mapMasternodes.erase mnb.vin.prevout } :=
    local_entries h hagree hframe
  dsimp only [checkInputsAndAdd]
  rw [checkPing_eq params crypto ctx h hP, h.entry _ (hP _ (.inl rfl))]
  split_ifs
  · exact local_refl h
  · exact local_refl h
  · exact herase
  · refine ⟨⟨hagree, fun k hk => ?_⟩, hframe, fun k hk => ?_⟩
    · simp only [get_erase]
      split_ifs
      · rfl
      · exact h.seen k hk
    · rw [get_erase_ne (hK k hk).symm]
  · exact herase
  · unfold add
    split_ifs
    · exact herase
    · exact herase
    · exact herase
    · refine local_entries h (fun o ho => ?_) fun o ho => ?_
      · simp only [get_insertIfNew, hagree o ho]
      · have hne : mnb.vin.prevout ≠ o := fun heq => hQ o ho (.inl heq.symm)
        simp [get_insertIfNew, hne, hframe o ho]

include hH

/-- **A broadcast reads and writes** the entries of its collateral and its ping, and its hash. -/
theorem local_processMNBroadcast :
    Local P Q H K st st' (st.processMNBroadcast params crypto ctx mnb).2
      (st'.processMNBroadcast params crypto ctx mnb).2 := by
  obtain ⟨hsame, hchecked⟩ := local_checkAndUpdate params crypto ctx (K := K) h hP hQ
  dsimp only [processMNBroadcast]
  simp only [Std.ExtTreeMap.contains_eq_isSome_getElem?]
  rw [h.seen _ hH, hsame]
  split_ifs
  · exact local_refl h
  · exact local_refl h
  · exact hchecked
  · exact hchecked
  all_goals
    have hseen := local_seen crypto (Q := Q) hchecked.agree hK
    have hadd := local_checkInputsAndAdd params crypto ctx hseen.agree hP hQ hK
    exact ⟨hadd.agree, hchecked.frame.trans (hseen.frame.trans hadd.frame)⟩

end

end MasternodeLists

section Deliveries
variable (params : MasternodeParams) (crypto : BroadcastCrypto) (ctx : BroadcastContext)

namespace MasternodeLists

/-- A broadcast is delivered. -/
def deliver (st : MasternodeLists) (mnb : MasternodeBroadcast) : MasternodeLists :=
  (st.processMNBroadcast params crypto ctx mnb).2

/-- The broadcast is remembered, and the list has an entry with its fields. -/
def Lists (st : MasternodeLists) (mnb : MasternodeBroadcast) : Prop :=
  st.mapSeenMasternodeBroadcast[mnb.getHash crypto]?.isSome = true ∧
    ∃ e, st.mapMasternodes[mnb.vin.prevout]? = some e ∧ e.fields = mnb.fields

/-- The broadcast is stopped before it is remembered. -/
def Stops (st : MasternodeLists) (mnb : MasternodeBroadcast) : Prop :=
  st.mapSeenMasternodeBroadcast.contains (mnb.getHash crypto) = true ∨
    (!mnb.addrV1Compatible && !ctx.isV5_3 params) = true ∨
    (mnb.checkAndUpdate params crypto ctx st).1.1 = false

end MasternodeLists

namespace MasternodeBroadcast

/-- Two broadcasts have different hashes and touch different entries. -/
structure Apart (a b : MasternodeBroadcast) : Prop where
  hash : a.getHash crypto ≠ b.getHash crypto
  entry : ∀ o, b.Touches o → ¬ a.Touches o

end MasternodeBroadcast

/-- **The condition on a delivery**, for the broadcasts that count: it is one of these, or is
stopped, or is apart from all of these. -/
def Undisturbing (genuine : List MasternodeBroadcast) (st : MasternodeLists)
    (mnb : MasternodeBroadcast) : Prop :=
  mnb ∈ genuine ∨ st.Stops params crypto ctx mnb ∨ ∀ b ∈ genuine, mnb.Apart crypto b

end Deliveries

namespace MasternodeLists

variable {params : MasternodeParams} {crypto : BroadcastCrypto} {ctx : BroadcastContext}
  {st st₀ : MasternodeLists} {mnb b : MasternodeBroadcast} {genuine : List MasternodeBroadcast}

/-- Nothing has happened to what the broadcast reads since `st`. -/
abbrev Same (crypto : BroadcastCrypto) (b : MasternodeBroadcast) (st st' : MasternodeLists) : Prop :=
  AgreeOn b.Touches (· = b.getHash crypto) st st'

theorem deliver_of_stops (h : st.Stops params crypto ctx mnb) :
    st.deliver params crypto ctx mnb = st := by
  have hkeep : (mnb.checkAndUpdate params crypto ctx st).1.1 = false →
      (mnb.checkAndUpdate params crypto ctx st).2 = st := by
    intro hfail
    refine (mnb.checkAndUpdate_cases params crypto ctx st).2.resolve_right fun ⟨hok, _⟩ => ?_
    simp [hok] at hfail
  dsimp only [deliver, processMNBroadcast]
  rcases h with hseen | haddr | hchecked
  · rw [if_pos hseen]
  · rw [if_pos haddr]
    split_ifs <;> rfl
  · simp only [hchecked, hkeep hchecked, Bool.not_false, if_true]
    split_ifs <;> rfl

theorem same_of_apart (h : mnb.Apart crypto b) :
    Same crypto b st (st.deliver params crypto ctx mnb) := by
  have hrefl : AgreeOn (fun _ => True) (fun _ => True) st st := .refl st
  exact (local_processMNBroadcast params crypto ctx hrefl (fun _ _ => trivial) h.entry trivial
    fun k hk heq => h.hash (heq.symm.trans hk)).frame

/-- **One delivery**: what a broadcast reads stays as it was, before the broadcast or after it, and
is as after it once it is delivered. -/
theorem deliver_same (hlists : (st₀.deliver params crypto ctx b).Lists crypto b)
    (hok : mnb ≠ b → st.Stops params crypto ctx mnb ∨ mnb.Apart crypto b)
    (h : Same crypto b st₀ st ∨ Same crypto b (st₀.deliver params crypto ctx b) st) :
    (Same crypto b st₀ (st.deliver params crypto ctx mnb) ∨
      Same crypto b (st₀.deliver params crypto ctx b) (st.deliver params crypto ctx mnb)) ∧
    (mnb = b ∨ Same crypto b (st₀.deliver params crypto ctx b) st →
      Same crypto b (st₀.deliver params crypto ctx b) (st.deliver params crypto ctx mnb)) := by
  by_cases hb : mnb = b
  · subst hb
    have hafter : Same crypto mnb (st₀.deliver params crypto ctx mnb)
        (st.deliver params crypto ctx mnb) := by
      rcases h with h | h
      · exact (local_processMNBroadcast params crypto ctx (Q := fun _ => False)
          (K := fun _ => False) h (fun _ ho => ho) (fun _ ho => ho.elim) rfl
          (fun _ hk => hk.elim)).agree
      · -- it was seen, and is dropped
        have hseen : st.mapSeenMasternodeBroadcast.contains (mnb.getHash crypto) = true := by
          rw [Std.ExtTreeMap.contains_eq_isSome_getElem?, h.seen _ rfl]
          exact hlists.1
        rwa [deliver_of_stops (.inl hseen)]
    exact ⟨.inr hafter, fun _ => hafter⟩
  · have hframe : Same crypto b st (st.deliver params crypto ctx mnb) := by
      rcases hok hb with hstops | hapart
      · rw [deliver_of_stops hstops]
        exact .refl st
      · exact same_of_apart hapart
    exact ⟨h.imp (·.trans hframe) (·.trans hframe), fun hafter => (hafter.resolve_left hb).trans hframe⟩

/-- **All accepted broadcasts are listed**, in every order of deliveries: when each of them is
accepted alone, they are apart from each other, and every other broadcast is stopped before it is
remembered or is apart from them. -/
theorem deliveries_listed (params : MasternodeParams) (crypto : BroadcastCrypto)
    (ctx : BroadcastContext) (st₀ : MasternodeLists) (genuine deliveries : List MasternodeBroadcast)
    (haccepted : ∀ b ∈ genuine, (st₀.deliver params crypto ctx b).Lists crypto b)
    (hapart : ∀ b ∈ genuine, ∀ b' ∈ genuine, b ≠ b' → b.Apart crypto b')
    (hok : GuardedRun.Allows (deliver params crypto ctx) (Undisturbing params crypto ctx genuine) st₀
      deliveries) (hall : ∀ b ∈ genuine, b ∈ deliveries) :
    ∀ b ∈ genuine, (deliveries.foldl (deliver params crypto ctx) st₀).Lists crypto b := by
  intro b hb
  have hrun : ∀ (l : List MasternodeBroadcast) (st : MasternodeLists),
      GuardedRun.Allows (deliver params crypto ctx) (Undisturbing params crypto ctx genuine) st l →
      (Same crypto b st₀ st ∨ Same crypto b (st₀.deliver params crypto ctx b) st) →
      (b ∈ l ∨ Same crypto b (st₀.deliver params crypto ctx b) st) →
      Same crypto b (st₀.deliver params crypto ctx b) (l.foldl (deliver params crypto ctx) st) := by
    intro l
    induction l with
    | nil =>
      intro st _ _ hdone
      exact hdone.resolve_left (by simp)
    | cons mnb l ih =>
      intro st hallows hsame hdone
      have hother : mnb ≠ b → st.Stops params crypto ctx mnb ∨ mnb.Apart crypto b := by
        intro hne
        rcases hallows.1 with hmem | hstops | hothers
        · exact .inr (hapart mnb hmem b hb hne)
        · exact .inl hstops
        · exact .inr (hothers b hb)
      obtain ⟨hnext, hafter⟩ := deliver_same (haccepted b hb) hother hsame
      refine ih _ hallows.2 hnext ?_
      rcases hdone with hmem | hdone
      · rcases List.mem_cons.mp hmem with rfl | hmem
        · exact .inr (hafter (.inl rfl))
        · exact .inl hmem
      · exact .inr (hafter (.inr hdone))
  have hend := hrun deliveries st₀ hok (.inl (.refl st₀)) (.inl (hall b hb))
  obtain ⟨hseen, e, he, hfields⟩ := haccepted b hb
  exact ⟨(hend.seen _ rfl).trans hseen, e, (hend.entry _ (.inl rfl)).trans he, hfields⟩

end MasternodeLists

namespace Sample

/-- A transaction with two collaterals of one key. -/
def twoCollateralsTx : Transaction :=
  { collateralTx with
    vout := [⟨100, Script.payToKeyID 4⟩, ⟨100, Script.payToKeyID 4⟩]
    vout_lt := by decide }

def twoCollaterals : BroadcastContext :=
  { broadcastContext with
    getTransaction := fun hash => if hash = 7 then some twoCollateralsTx else none
    pcoinsTip := ((∅ : FMap OutPoint Coin).insert ⟨7, 0⟩
      ⟨⟨100, Script.payToKeyID 4⟩, 10, false, false⟩).insert
        ⟨7, 1⟩ ⟨⟨100, Script.payToKeyID 4⟩, 10, false, false⟩ }

/-- Signatures of one announcement only, which the holder of the key made for the first output. -/
def holderCrypto : BroadcastCrypto :=
  { broadcastCrypto with
    verify := fun keyID data _ =>
      decide (keyID = 4 ∧ data = (announce 0 9000).signedData broadcastCrypto) }

def holderSigned (o : OutPoint) (keyID : KeyID) (data : SignedMasternodeData) : Prop :=
  o = ⟨7, 0⟩ ∧ keyID = 4 ∧ data = (announce 0 9000).signedData broadcastCrypto

theorem unforgeable_holderCrypto : Unforgeable holderCrypto holderSigned := by
  intro keyID data vchSig hverify
  exact ⟨⟨7, 0⟩, rfl, of_decide_eq_true hverify⟩

/-- **An announcement is moved to another collateral.** The holder of the key signed for the first
output; with the second one in its place the announcement is accepted. -/
theorem announcement_moved :
    Unforgeable holderCrypto holderSigned ∧
    (run masternodeParams holderCrypto
      [.mnb twoCollaterals (announce 1 9000)]).mapMasternodes[(⟨7, 1⟩ : OutPoint)]? =
        some { announce 1 9000 with } ∧
    ¬ SignedFor holderCrypto holderSigned ⟨7, 1⟩ (announce 1 9000) := by
  refine ⟨unforgeable_holderCrypto, by decide +kernel, fun hsigned => ?_⟩
  exact absurd hsigned.1 (by decide)

theorem announcement_authentic :
    SignedFor holderCrypto holderSigned ⟨7, 0⟩ (announce 0 9000) := by
  have hrun : GuardedRun (step masternodeParams holderCrypto)
      (NamesSigned masternodeParams holderCrypto holderSigned) {}
      (run masternodeParams holderCrypto [.mnb twoCollaterals (announce 0 9000)]) :=
    .next (MasternodeMessage.mnb twoCollaterals (announce 0 9000)) .init
      fun _ (o : OutPoint) (hsigned : holderSigned o _ _) => hsigned.1
  exact (entries_authentic _ _ _ unforgeable_holderCrypto _ hrun).1 ⟨7, 0⟩
    { announce 0 9000 with } (by decide +kernel)

instance (st : MasternodeLists) (mnb : MasternodeBroadcast) :
    Decidable (st.Lists broadcastCrypto mnb) :=
  decidable_of_iff (st.mapSeenMasternodeBroadcast[mnb.getHash broadcastCrypto]?.isSome = true ∧
      (st.mapMasternodes[mnb.vin.prevout]?.any fun e => decide (e.fields = mnb.fields)) = true) (by
    unfold MasternodeLists.Lists
    cases st.mapMasternodes[mnb.vin.prevout]? <;> simp)

/-- **Two announcements of one second.** Each is accepted alone, and the second one is dropped after
the first. -/
theorem announcement_suppressed : (announce 0 9000).vin.prevout ≠ (announce 1 9000).vin.prevout ∧
    (({} : MasternodeLists).deliver masternodeParams broadcastCrypto twoCollaterals
      (announce 0 9000)).Lists broadcastCrypto (announce 0 9000) ∧
    (({} : MasternodeLists).deliver masternodeParams broadcastCrypto twoCollaterals
      (announce 1 9000)).Lists broadcastCrypto (announce 1 9000) ∧
    ¬ ([announce 0 9000, announce 1 9000].foldl
      (deliver masternodeParams broadcastCrypto twoCollaterals) {}).Lists
        broadcastCrypto (announce 1 9000) := by
  decide +kernel

theorem announcements_listed : ([announce 1 9001, announce 0 9000].foldl
      (deliver masternodeParams broadcastCrypto twoCollaterals) {}).Lists
        broadcastCrypto (announce 0 9000) := by
  have hfirst : (announce 0 9000).Apart broadcastCrypto (announce 1 9001) := by
    refine ⟨by decide +kernel, fun o ho ho' => ?_⟩
    rcases ho with rfl | rfl <;> exact absurd ho' (by unfold Touches; decide)
  have hapart : ∀ b ∈ [announce 0 9000, announce 1 9001],
      ∀ b' ∈ [announce 0 9000, announce 1 9001], b ≠ b' → b.Apart broadcastCrypto b' := by
    simp only [List.forall_mem_cons, List.not_mem_nil, false_imp_iff, implies_true, and_true]
    exact ⟨⟨fun h => absurd rfl h, fun _ => hfirst⟩, fun _ =>
      ⟨hfirst.hash.symm, fun o ho ho' => hfirst.entry o ho' ho⟩, fun h => absurd rfl h⟩
  refine deliveries_listed masternodeParams broadcastCrypto twoCollaterals {} _ _
    (by decide +kernel) hapart ?_ (by decide) _ List.mem_cons_self
  exact ⟨.inl (by decide), .inl (by decide), trivial⟩

end Sample

end KmushiCoin
