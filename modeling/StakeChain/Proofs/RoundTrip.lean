import StakeChain.Fixture
import StakeChain.Proofs.HexText
import StakeChain.Proofs.JsonText
import StakeChain.Record.Config
/-!
Records are read back from their texts. For each type of record, `keeps` says that what is written for a value is
a plain document, which JSON text keeps, and that the value is read from it again; a record's fields are found by
their names, and each of them keeps its own value. A few numbers are bounded by their readers only, and `Fits`
says which values of their records are meant; a reader gives no others.
-/

namespace StakeChain

/-! ### Fields -/

namespace Document

/-- The value is written as a plain document, from which it is read again. -/
structure Keeps {α : Type} (encode : α → Document) (decode? : Document → Option α) (x : α) : Prop where
  plain : Json.Plain (encode x)
  read : decode? (encode x) = some x

variable {α : Type} {encode : α → Document} {decode? : Document → Option α}

theorem mapM_eq_some {β : Type} {f : α → Option β} {g : α → β} {l : List α} (h : ∀ a ∈ l, f a = some (g a)) :
    l.mapM f = some (l.map g) := by
  induction l with
  | nil => rfl
  | cons a l ih =>
    obtain ⟨ha, hl⟩ := List.forall_mem_cons.1 h
    rw [List.mapM_cons, ha, ih hl]
    rfl

/-- A list is read back from what was written for its elements. -/
theorem mapM_map_eq_some {β : Type} {f : β → Option α} {g : α → β} {l : List α}
    (h : ∀ a ∈ l, f (g a) = some a) : (l.map g).mapM f = some l := by
  have hread : l.mapM (f ∘ g) = some (l.map id) := mapM_eq_some h
  rw [List.mapM_map, hread, List.map_id]

/-- In a table without repeated keys a member is found by its key. -/
theorem member?_eq_some {members : List (String × Document)} (h : (members.map Prod.fst).Nodup)
    {m : String × Document} (hm : m ∈ members) : member? members m.1 = some (some m.2) := by
  have hfilter : members.filter (fun m' => m'.1 == m.1) = [m] := by
    induction members with
    | nil => simp at hm
    | cons a members ih =>
      obtain ⟨hfresh, hnodup⟩ := List.nodup_cons.1 h
      rcases List.mem_cons.1 hm with rfl | hm
      · have hnone : members.filter (fun m' => m'.1 == m.1) = [] := by
          refine List.filter_eq_nil_iff.2 fun m' hm' heq => hfresh ?_
          exact List.mem_map.2 ⟨m', hm', by simpa using heq⟩
        simp [hnone]
      · have hne : ¬ a.1 = m.1 := fun heq => hfresh (heq ▸ List.mem_map_of_mem hm)
        rw [List.filter_cons_of_neg (by simpa using hne)]
        exact ih hnodup hm
  rw [member?, hfilter]

/-- A record's fields are found in the table that was written for it. -/
theorem fieldsWith?_table {names : List String} {members : List (String × Document)} (surplus : Bool)
    (hnames : members.map Prod.fst = names) (hnodup : names.Nodup) :
    (table members).fieldsWith? surplus names = some (members.map fun m => some m.2) := by
  subst hnames
  rw [fieldsWith?, List.mapM_map]
  exact mapM_eq_some fun m hm => member?_eq_some hnodup hm

namespace Keeps

variable {x : α}

theorem required (h : Keeps encode decode? x) : Document.required decode? (some (encode x)) = some x := h.read

theorem defaulted (h : Keeps encode decode? x) (value : α) :
    Document.defaulted value decode? (some (encode x)) = some x := h.read

theorem optional {o : Option α} (h : ∀ x ∈ o, Keeps encode decode? x) (hnull : ∀ x, encode x ≠ null) :
    Document.optional decode? (some (ofOption encode o)) = some o := by
  cases o with
  | none => rfl
  | some x =>
    have hread := (h x rfl).read
    rw [ofOption, Document.optional, hread]
    · rfl
    · simpa using hnull x

theorem plain_option {o : Option α} (h : ∀ x ∈ o, Keeps encode decode? x) : Json.Plain (ofOption encode o) := by
  cases o with
  | none => exact .null
  | some x => exact (h x rfl).plain

theorem list {l : List α} (h : ∀ x ∈ l, Keeps encode decode? x) :
    Keeps (fun l : List α => Document.list (l.map encode)) (listOf? decode?) l where
  plain := by
    refine .list fun d hd => ?_
    obtain ⟨x, hx, rfl⟩ := List.mem_map.1 hd
    exact (h x hx).plain
  read := mapM_map_eq_some fun x hx => (h x hx).read

theorem required_list {l : List α} (h : ∀ x ∈ l, Keeps encode decode? x) :
    (l.map fun x => some (encode x)).mapM (Document.required decode?) = some l :=
  mapM_map_eq_some fun x hx => (h x hx).required

end Keeps

/-! ### Numbers -/

theorem keeps_nat32 {n : Nat} (h : n < UInt32.size) : Keeps nat nat32? n where
  plain := .int _
  read := by
    have hrange : (0 : Int) ≤ n ∧ (n : Int) < UInt32.size := ⟨Int.natCast_nonneg n, by exact_mod_cast h⟩
    rw [nat, nat32?, intWithin?, if_pos hrange]
    rfl

theorem keeps_uint32 (x : UInt32) : Keeps (fun x : UInt32 => nat x.toNat) uint32? x where
  plain := .int _
  read := by rw [uint32?, (keeps_nat32 x.toNat_lt).read, Option.map_some, UInt32.ofNat_toNat]

theorem keeps_uint64 (x : UInt64) : Keeps (fun x : UInt64 => nat x.toNat) uint64? x where
  plain := .int _
  read := by
    have hrange : (0 : Int) ≤ x.toNat ∧ (x.toNat : Int) < UInt64.size :=
      ⟨Int.natCast_nonneg _, by exact_mod_cast x.toNat_lt⟩
    rw [nat, uint64?, intWithin?, if_pos hrange, Option.map_some, Int.toNat_natCast, UInt64.ofNat_toNat]

theorem keeps_int32 (x : Int32) : Keeps (fun x : Int32 => int x.toInt) int32? x where
  plain := .int _
  read := by
    have hlow := x.le_toInt
    have hhigh := x.toInt_lt
    rw [int32?, intWithin?, if_pos (by omega), Option.map_some, Int32.ofInt_toInt]

theorem keeps_int64 (x : Int64) : Keeps (fun x : Int64 => int x.toInt) int64? x where
  plain := .int _
  read := by
    have hlow := x.le_toInt
    have hhigh := x.toInt_lt
    rw [int64?, intWithin?, if_pos (by omega), Option.map_some, Int64.ofInt_toInt]

end Document

open Document

/-! ### Hashes, bytes and names -/

theorem Hash.keeps (h : Hash) : Keeps toDocument ofDocument? h where
  plain := .string _
  read := by
    rw [toDocument, ofDocument?, string?, Option.bind_some, parse_toString]
    rfl

theorem Text.Hex.keeps (bs : List UInt8) : Keeps toDocument ofDocument? bs where
  plain := .string _
  read := by
    rw [toDocument, ofDocument?, string?, Option.bind_some, String.toList_ofList, decode_encode]
    rfl

theorem SignatureDigest.keeps (digest : SignatureDigest) : Keeps toDocument ofDocument? digest where
  plain := .string _
  read := by
    rw [toDocument, ofDocument?, (Text.Hex.keeps _).read, Option.bind_some, dif_pos (Vector.length_toList)]
    rfl

theorem Network.keeps (n : Network) : Keeps toDocument ofDocument? n where
  plain := .string _
  read := by cases n <;> decide

/-! ### Records -/

theorem OutPoint.keeps (o : OutPoint) : Keeps toDocument ofDocument? o where
  plain := by
    refine .table ?_
    simp [o.txid.keeps.plain, (keeps_uint32 o.vout).plain]
  read := by
    rw [toDocument, ofDocument?, fields?, fieldsWith?_table]
    · simp [o.txid.keeps.required, (keeps_uint32 o.vout).required]
    · rfl
    · decide

theorem OutPoint.keeps_input (o : OutPoint) : Keeps toInputDocument ofInputDocument? o where
  plain := by
    refine .table ?_
    simp [o.keeps.plain]
  read := by
    rw [toInputDocument, ofInputDocument?, fields?, fieldsWith?_table]
    · simp [o.keeps.required]
    · rfl
    · decide

theorem Output.keeps (o : Output) : Keeps toDocument ofDocument? o where
  plain := by
    refine .table ?_
    simp [(keeps_int64 o.value).plain, (Text.Hex.keeps o.script).plain]
  read := by
    rw [toDocument, ofDocument?, fields?, fieldsWith?_table]
    · simp [(keeps_int64 o.value).required, (Text.Hex.keeps o.script).defaulted]
    · rfl
    · decide

theorem Transaction.keeps (tx : Transaction) : Keeps toDocument ofDocument? tx where
  plain := by
    have htime := Keeps.plain_option (o := tx.time) fun t _ => keeps_uint32 t
    have hinputs := Keeps.list (l := tx.inputs) fun o _ => o.keeps_input
    have houtputs := Keeps.list (l := tx.outputs) fun o _ => o.keeps
    refine .table ?_
    simp [tx.txid.keeps.plain, htime, hinputs.plain, houtputs.plain, (keeps_uint32 tx.size).plain]
  read := by
    have htime := Keeps.optional (o := tx.time) (fun t _ => keeps_uint32 t) (by simp [nat])
    have hinputs := Keeps.list (l := tx.inputs) fun o _ => o.keeps_input
    have houtputs := Keeps.list (l := tx.outputs) fun o _ => o.keeps
    rw [toDocument, ofDocument?, fields?, fieldsWith?_table]
    · simp [tx.txid.keeps.required, htime, hinputs.required, houtputs.required, (keeps_uint32 tx.size).required]
    · rfl
    · decide

theorem CandidateBlock.keeps (b : CandidateBlock) : Keeps toDocument ofDocument? b where
  plain := by
    have hprev := Keeps.plain_option (o := b.prevHash) fun h _ => h.keeps
    have htxs := Keeps.list (l := b.transactions) fun tx _ => tx.keeps
    have hdigest := Keeps.plain_option (o := b.signatureDigest) fun digest _ => digest.keeps
    refine .table ?_
    simp [b.hash.keeps.plain, hprev, (keeps_uint32 b.time).plain, (keeps_int32 b.version).plain,
      (keeps_uint32 b.nBits).plain, htxs.plain, hdigest]
  read := by
    have hprev := Keeps.optional (o := b.prevHash) (fun h _ => h.keeps) (by simp [Hash.toDocument])
    have htxs := Keeps.list (l := b.transactions) fun tx _ => tx.keeps
    have hdigest := Keeps.optional (o := b.signatureDigest) (fun digest _ => digest.keeps)
      (by simp [SignatureDigest.toDocument, Text.Hex.toDocument])
    rw [toDocument, ofDocument?, fields?, fieldsWith?_table]
    · simp [b.hash.keeps.required, hprev, (keeps_uint32 b.time).required, (keeps_int32 b.version).defaulted,
        (keeps_uint32 b.nBits).required, htxs.required, hdigest]
    · rfl
    · decide

theorem Fixture.keeps (f : Fixture) : Keeps toDocument ofDocument? f where
  plain := by
    have hblocks := Keeps.list (l := f.blocks) fun b _ => b.keeps
    refine .table ?_
    simp [f.network.keeps.plain, hblocks.plain]
  read := by
    have hblocks := Keeps.list (l := f.blocks) fun b _ => b.keeps
    rw [toDocument, ofDocument?, fields?, fieldsWith?_table]
    · simp [f.network.keeps.required, hblocks.required]
    · rfl
    · decide

/-- A table of switches is read where its fields are nine words. The fields are left unknown here: those of a
written table would be computed with, bounds of words included. -/
theorem SwitchTable.ofDocument?_eq_some {surplus : Bool} {d : Document} {fields : List (Option Document)}
    {s : SwitchTable}
    (hfields : d.fieldsWith? surplus
      ["v03", "v04", "v05", "v06", "v07", "btc16_bips", "v09", "v10", "v12"] = some fields)
    (hwords : fields.mapM (required uint32?) =
      some [s.v03, s.v04, s.v05, s.v06, s.v07, s.btc16Bips, s.v09, s.v10, s.v12]) :
    ofDocument? surplus d = some s := by
  simp only [ofDocument?, hfields, hwords, Option.bind_eq_bind, Option.bind_some]
  rfl

theorem SwitchTable.keeps (s : SwitchTable) : Keeps toDocument (ofDocument? false) s where
  plain := by
    refine .table ?_
    simp [(keeps_uint32 _).plain]
  read := by
    have hwords := Keeps.required_list
      (l := [s.v03, s.v04, s.v05, s.v06, s.v07, s.btc16Bips, s.v09, s.v10, s.v12]) fun t _ => keeps_uint32 t
    exact ofDocument?_eq_some (fieldsWith?_table false rfl (by decide)) hwords

theorem SuperMajorityRule.keeps (r : SuperMajorityRule) : Keeps toDocument (ofDocument? false) r where
  plain := by
    refine .table ?_
    simp [(keeps_int32 r.minVersion).plain, (keeps_uint32 r.required).plain, (keeps_uint32 r.window).plain]
  read := by
    rw [toDocument, ofDocument?, fieldsWith?_table]
    · simp [(keeps_int32 r.minVersion).required, (keeps_uint32 r.required).required,
        (keeps_uint32 r.window).required]
    · rfl
    · decide

theorem Flags.keeps (f : Flags) :
    Keeps (fun f : Flags => .nat f.bits.toNat) (fun d => d.uint32?.map Flags.mk) f where
  plain := .int _
  read := by simp only [(keeps_uint32 f.bits).read, Option.map_some]

/-! ### Numbers that a reader bounds -/

/-- The height is one that is written in 32 bits. -/
def SourceBlock.Fits (b : SourceBlock) : Prop := b.height < UInt32.size

def StakeSource.Fits (s : StakeSource) : Prop := s.block.Fits

/-- The height, and the id of the block before, are written in 32 bits. -/
structure Position.Fits (b : Position) : Prop where
  prev : ∀ id ∈ b.prev, id < UInt32.size
  height : b.height < UInt32.size

/-- What every reading of a field has, an optional field has where it is there. -/
theorem Document.optional_forall {α : Type} {decode? : Document → Option α} {p : α → Prop}
    (hp : ∀ d x, decode? d = some x → p x) {field : Option Document} {o : Option α}
    (h : optional decode? field = some o) : ∀ x ∈ o, p x := by
  unfold optional at h
  split at h
  · cases h
    simp
  · cases h
    simp
  · obtain ⟨x, hx, rfl⟩ := Option.map_eq_some_iff.1 h
    intro y hy
    cases hy
    exact hp _ _ hx

theorem Document.required_forall {α : Type} {decode? : Document → Option α} {p : α → Prop}
    (hp : ∀ d x, decode? d = some x → p x) {field : Option Document} {x : α}
    (h : required decode? field = some x) : p x := by
  obtain ⟨d, -, hd⟩ := Option.bind_eq_some_iff.1 h
  exact hp d x hd

theorem Document.nat32?_lt (d : Document) (n : Nat) (h : d.nat32? = some n) : n < UInt32.size := by
  obtain ⟨i, hi, rfl⟩ := Option.map_eq_some_iff.1 h
  unfold intWithin? at hi
  split at hi
  · split at hi
    · cases hi
      omega
    · cases hi
  · cases hi

theorem SourceBlock.keeps {b : SourceBlock} (h : b.Fits) : Keeps toDocument ofDocument? b where
  plain := by
    refine .table ?_
    simp [b.hash.keeps.plain, (keeps_nat32 h).plain, (keeps_uint32 b.time).plain]
  read := by
    rw [toDocument, ofDocument?, fields?, fieldsWith?_table]
    · simp [b.hash.keeps.required, (keeps_nat32 h).required, (keeps_uint32 b.time).required]
    · rfl
    · decide

theorem SourceBlock.fits_of_read (d : Document) (b : SourceBlock) (h : ofDocument? d = some b) : b.Fits := by
  obtain ⟨fields, -, h⟩ := Option.bind_eq_some_iff.1 h
  split at h
  · simp only [Option.bind_eq_bind, Option.bind_eq_some_iff] at h
    obtain ⟨hash, -, height, hheight, time, -, hb⟩ := h
    cases hb
    exact required_forall nat32?_lt hheight
  · cases h

theorem StakeSource.keeps {s : StakeSource} (h : s.Fits) : Keeps toDocument ofDocument? s where
  plain := by
    have htime := Keeps.plain_option (o := s.txTime) fun t _ => keeps_uint32 t
    refine .table ?_
    simp [s.outpoint.keeps.plain, s.output.keeps.plain, htime, (SourceBlock.keeps h).plain,
      (keeps_uint32 s.txOffset).plain]
  read := by
    have htime := Keeps.optional (o := s.txTime) (fun t _ => keeps_uint32 t) (by simp [nat])
    rw [toDocument, ofDocument?, fields?, fieldsWith?_table]
    · simp [s.outpoint.keeps.required, s.output.keeps.required, htime, (SourceBlock.keeps h).required,
        (keeps_uint32 s.txOffset).required]
    · rfl
    · decide

theorem StakeSource.fits_of_read (d : Document) (s : StakeSource) (h : ofDocument? d = some s) : s.Fits := by
  obtain ⟨fields, -, h⟩ := Option.bind_eq_some_iff.1 h
  split at h
  · simp only [Option.bind_eq_bind, Option.bind_eq_some_iff] at h
    obtain ⟨outpoint, -, output, -, txTime, -, block, hblock, txOffset, -, hs⟩ := h
    cases hs
    exact required_forall SourceBlock.fits_of_read hblock
  · cases h

theorem Position.keeps {b : Position} (h : b.Fits) : Keeps toDocument ofDocument? b where
  plain := by
    have hprev := Keeps.plain_option (o := b.prev) fun id hid => keeps_nat32 (h.prev id hid)
    refine .table ?_
    simp [hprev, (keeps_nat32 h.height).plain, (keeps_uint32 _).plain, (keeps_int32 b.version).plain,
      b.hash.keeps.plain, (keeps_uint64 b.stakeModifier).plain, b.proofHash.keeps.plain]
  read := by
    have hprev := Keeps.optional (o := b.prev) (fun id hid => keeps_nat32 (h.prev id hid)) (by simp [nat])
    rw [toDocument, ofDocument?, fields?, fieldsWith?_table]
    · simp [hprev, (keeps_nat32 h.height).required, (keeps_uint32 b.time).required,
        (keeps_int32 b.version).required, b.hash.keeps.required, (keeps_uint32 b.flags.bits).required,
        (keeps_uint64 b.stakeModifier).required, (keeps_uint32 b.checksum).required, b.proofHash.keeps.required]
    · rfl
    · decide

theorem Position.fits_of_read (d : Document) (b : Position) (h : ofDocument? d = some b) : b.Fits := by
  obtain ⟨fields, -, h⟩ := Option.bind_eq_some_iff.1 h
  split at h
  · simp only [Option.bind_eq_bind, Option.bind_eq_some_iff] at h
    obtain ⟨prev, hprev, height, hheight, time, -, version, -, hash, -, flags, -, stakeModifier, -,
      checksum, -, proofHash, -, hb⟩ := h
    cases hb
    exact ⟨optional_forall nat32?_lt hprev, required_forall nat32?_lt hheight⟩
  · cases h

/-! ### Texts -/

/-- The value that a text holds. -/
def readText? {α : Type} (decode? : Document → Option α) (text : String) : Option α :=
  (Json.read? text).bind decode?

/-- The text that holds a value, on one line. -/
def writeText {α : Type} (encode : α → Document) (x : α) : String := Json.write (encode x)

/-- Texts keep the values of a type, of which `fits` says what values it has. -/
structure Lossless {α : Type} (fits : α → Prop) (encode : α → Document) (decode? : Document → Option α) :
    Prop where
  /-- A value is read back from its text. -/
  written : ∀ x, fits x → readText? decode? (writeText encode x) = some x
  /-- Whatever text a value was read from, it is a value of the type and is read back from its own text. -/
  reread : ∀ text x, readText? decode? text = some x → fits x ∧ readText? decode? (writeText encode x) = some x
  /-- The text of a value that was read is written again. -/
  rewritten : ∀ text x, readText? decode? text = some x →
    (readText? decode? (writeText encode x)).map (writeText encode) = some (writeText encode x)

theorem Lossless.of_keeps {α : Type} {fits : α → Prop} {encode : α → Document} {decode? : Document → Option α}
    (hkeeps : ∀ x, fits x → Keeps encode decode? x) (hfits : ∀ d x, decode? d = some x → fits x) :
    Lossless fits encode decode? := by
  have hwritten : ∀ x, fits x → readText? decode? (writeText encode x) = some x := by
    intro x hx
    rw [readText?, writeText, (hkeeps x hx).plain.read?_write, Option.bind_some, (hkeeps x hx).read]
  have hread : ∀ text x, readText? decode? text = some x → fits x := by
    intro text x h
    obtain ⟨d, -, hd⟩ := Option.bind_eq_some_iff.1 h
    exact hfits d x hd
  refine ⟨hwritten, fun text x h => ⟨hread text x h, hwritten x (hread text x h)⟩, fun text x h => ?_⟩
  rw [hwritten x (hread text x h), Option.map_some]

theorem Lossless.of_forall_keeps {α : Type} {encode : α → Document} {decode? : Document → Option α}
    (hkeeps : ∀ x, Keeps encode decode? x) : Lossless (fun _ => True) encode decode? :=
  .of_keeps (fun x _ => hkeeps x) fun _ _ _ => trivial

theorem Fixture.load?_save (f : Fixture) : load? f.save = some f := by
  rw [load?, save, f.keeps.plain.read?_writePretty, Option.bind_some, f.keeps.read]

/-- A fixture is read back from its file, and so is one that was read from any text, whose file is then written
the same again. In compact form the values of every type of record are kept likewise. -/
theorem records_round_trip :
    (∀ f : Fixture, Fixture.load? f.save = some f) ∧
    (∀ text f, Fixture.load? text = some f →
      Fixture.load? f.save = some f ∧ (Fixture.load? f.save).map Fixture.save = some f.save) ∧
    Lossless (fun _ => True) Hash.toDocument Hash.ofDocument? ∧
    Lossless (fun _ => True) Network.toDocument Network.ofDocument? ∧
    Lossless (fun _ => True) SwitchTable.toDocument (SwitchTable.ofDocument? false) ∧
    Lossless (fun _ => True) SuperMajorityRule.toDocument (SuperMajorityRule.ofDocument? false) ∧
    Lossless (fun id => id < UInt32.size) Document.nat Document.nat32? ∧
    Lossless (fun _ => True) (fun f : Flags => .nat f.bits.toNat) (fun d => d.uint32?.map Flags.mk) ∧
    Lossless Position.Fits Position.toDocument Position.ofDocument? ∧
    Lossless (fun _ => True) OutPoint.toDocument OutPoint.ofDocument? ∧
    Lossless (fun _ => True) OutPoint.toInputDocument OutPoint.ofInputDocument? ∧
    Lossless (fun _ => True) Output.toDocument Output.ofDocument? ∧
    Lossless (fun _ => True) Transaction.toDocument Transaction.ofDocument? ∧
    Lossless SourceBlock.Fits SourceBlock.toDocument SourceBlock.ofDocument? ∧
    Lossless StakeSource.Fits StakeSource.toDocument StakeSource.ofDocument? ∧
    Lossless (fun _ => True) CandidateBlock.toDocument CandidateBlock.ofDocument? ∧
    Lossless (fun _ => True) Fixture.toDocument Fixture.ofDocument? := by
  refine ⟨Fixture.load?_save, fun text f _ => ⟨f.load?_save, ?_⟩, ?_⟩
  · rw [f.load?_save, Option.map_some]
  · exact ⟨.of_forall_keeps Hash.keeps, .of_forall_keeps Network.keeps, .of_forall_keeps SwitchTable.keeps,
      .of_forall_keeps SuperMajorityRule.keeps, .of_keeps (fun _ => keeps_nat32) nat32?_lt,
      .of_forall_keeps Flags.keeps, .of_keeps (fun _ => Position.keeps) Position.fits_of_read,
      .of_forall_keeps OutPoint.keeps, .of_forall_keeps OutPoint.keeps_input, .of_forall_keeps Output.keeps,
      .of_forall_keeps Transaction.keeps, .of_keeps (fun _ => SourceBlock.keeps) SourceBlock.fits_of_read,
      .of_keeps (fun _ => StakeSource.keeps) StakeSource.fits_of_read, .of_forall_keeps CandidateBlock.keeps,
      .of_forall_keeps Fixture.keeps⟩

/-- A fixture as its author may have typed it: the network as a table, a hash with a mark and capital letters, and
a block that leaves out what may be left out. -/
def handwrittenText : String :=
  "\x7b \"blocks\": [\x7b\"time\": 7, \"n_bits\": 503382015, \"transactions\": [], \"hash\":
    \" 0XAB00000000000000000000000000000000000000000000000000000000000000 \"\x7d],
    \"network\": \x7b\"regtest\": null\x7d \x7d"

/-- What the author meant. -/
def handwrittenFixture : Fixture where
  network := .regtest
  blocks := [{
    hash := .ofBytes (List.replicate 31 0 ++ [0xab])
    prevHash := none
    time := 7
    version := 1
    nBits := 503382015
    transactions := []
    signatureDigest := none }]

theorem records_round_trip_handwritten :
    Fixture.load? handwrittenText = some handwrittenFixture ∧ handwrittenFixture.save ≠ handwrittenText ∧
    Fixture.load? handwrittenFixture.save = some handwrittenFixture := by
  have hload : Fixture.load? handwrittenText = some handwrittenFixture := by decide +kernel
  exact ⟨hload, by decide +kernel, (records_round_trip.2.1 handwrittenText handwrittenFixture hload).1⟩

end StakeChain
