import Mathlib.Data.Finset.Max
import Mathlib.Data.String.Basic
import StakeChain.Proofs.Configuration
import StakeChain.Proofs.Numeral
/-!
Checkpoints as a configuration gives them: texts for heights and texts for checksums. Every entry has to be
read, and no height is pinned that no entry names. But texts are told apart where heights are not, so one
height may have several entries, and of those only the one whose text comes last is kept.
-/

namespace StakeChain

namespace Checkpoints

variable {c : Checkpoints} {height h : Nat} {checksum x : UInt32} {e : String × String}
  {table : SortedMap String String} {es : List (String × String)} {rs : List (Nat × UInt32)}

/-! ### Entries -/

/-- The texts of an entry spell a height and a checksum. -/
structure Pins (e : String × String) (height : Nat) (checksum : UInt32) : Prop where
  heightText : Text.Spells 10 (Text.trim e.1.toList) height
  word : height < UInt32.size
  checksumText : Text.Spells 16 (Text.dropHexMark (Text.trim e.2.toList)) checksum.toNat

theorem parseEntry_eq_ok : parseEntry e = .ok (height, checksum) ↔ Pins e height checksum := by
  unfold parseEntry
  constructor
  · intro hread
    split at hread
    · simp at hread
    · rename_i w hw
      split at hread
      · simp at hread
      · rename_i hchecksum
        cases hread
        exact ⟨(Text.word32?_eq_some (by decide)).1 hw, w.toNat_lt,
          (Text.word32?_eq_some (by decide)).1 hchecksum⟩
  · rintro ⟨hheight, hword, hchecksum⟩
    have hnat := UInt32.toNat_ofNat_of_lt' hword
    rw [(Text.word32?_eq_some (by decide)).2 (hnat.symm ▸ hheight),
      (Text.word32?_eq_some (by decide)).2 hchecksum]
    simp only [hnat]

/-- An entry is about one height, with one checksum. -/
theorem Pins.unique (he : Pins e height checksum) (he' : Pins e h x) : height = h ∧ checksum = x := by
  have hread := (parseEntry_eq_ok.2 he).symm.trans (parseEntry_eq_ok.2 he')
  simpa using hread

/-- Of the entries for a height, the one whose height text comes last has the checksum. -/
def Prevails (es : List (String × String)) (height : Nat) (checksum : UInt32) : Prop :=
  ∃ e ∈ es, Pins e height checksum ∧ ∀ e' ∈ es, ∀ x, Pins e' height x → e'.1 ≤ e.1

/-- The last text prevails. -/
theorem prevails_concat_self (hlast : ∀ a ∈ es, a.1 < e.1) (he : Pins e height x) :
    Prevails (es ++ [e]) height checksum ↔ x = checksum := by
  constructor
  · rintro ⟨e', hmem, he', hgreatest⟩
    rcases List.mem_append.1 hmem with hmem | hmem
    · have hle := hgreatest e (List.mem_append_right _ List.mem_cons_self) x he
      exact absurd (hlast e' hmem) (String.not_lt.2 hle)
    · obtain rfl := List.mem_singleton.1 hmem
      exact (he.unique he').2
  · rintro rfl
    refine ⟨e, List.mem_append_right _ List.mem_cons_self, he, fun e' hmem _ _ => ?_⟩
    rcases List.mem_append.1 hmem with hmem | hmem
    · exact le_of_lt (hlast e' hmem)
    · exact le_of_eq (congrArg Prod.fst (List.mem_singleton.1 hmem))

/-- An entry for another height changes nothing. -/
theorem prevails_concat_other (he : Pins e h x) (hne : height ≠ h) :
    Prevails (es ++ [e]) height checksum ↔ Prevails es height checksum := by
  have hother : ∀ y, ¬ Pins e height y := fun y hy => hne (hy.unique he).1
  constructor
  · rintro ⟨e', hmem, he', hgreatest⟩
    rcases List.mem_append.1 hmem with hmem | hmem
    · exact ⟨e', hmem, he', fun a ha => hgreatest a (List.mem_append_left _ ha)⟩
    · exact absurd (List.mem_singleton.1 hmem ▸ he') (hother _)
  · rintro ⟨e', hmem, he', hgreatest⟩
    refine ⟨e', List.mem_append_left _ hmem, he', fun a ha y hy => ?_⟩
    rcases List.mem_append.1 ha with ha | ha
    · exact hgreatest a ha y hy
    · exact absurd (List.mem_singleton.1 ha ▸ hy) (hother y)

/-- What is read entry by entry, in the order of the height texts, is what prevails. -/
theorem get?_ofList (hsorted : es.Pairwise fun a b => a.1 < b.1) (hread : es.mapM parseEntry = .ok rs) :
    (SortedMap.ofList rs).get? height = some checksum ↔ Prevails es height checksum := by
  induction es using List.reverseRecOn generalizing rs with
  | nil =>
    obtain rfl : [] = rs := by simpa [pure_eq_ok] using hread
    exact iff_of_false (by simp [SortedMap.ofList, SortedMap.empty, SortedMap.get?]) (by simp [Prevails])
  | append_singleton es e ih =>
    simp only [List.mapM_append, List.mapM_cons, List.mapM_nil, bind_eq_ok, pure_eq_ok] at hread
    obtain ⟨rs, hes, _, ⟨⟨h, x⟩, he, _, rfl, rfl⟩, rfl⟩ := hread
    obtain ⟨hsorted, -, hlast⟩ := List.pairwise_append.1 hsorted
    have he := parseEntry_eq_ok.1 he
    rw [SortedMap.ofList_concat, SortedMap.get?_set]
    by_cases heq : height = h
    · subst heq
      rw [if_pos rfl, Option.some.injEq]
      exact (prevails_concat_self (fun a ha => hlast a ha e List.mem_cons_self) he).symm
    · rw [if_neg heq, ih hsorted hes]
      exact (prevails_concat_other he heq).symm

/-! ### Whole tables -/

/-- The table that is read has what prevails. -/
theorem get?_parse (hread : parse table = .ok c) :
    c.get? height = some checksum ↔ Prevails table.entries height checksum := by
  obtain ⟨rs, hrs, rfl⟩ := map_eq_ok.1 hread
  exact get?_ofList table.ascending hrs

theorem exists_pins_of_mapM (hread : es.mapM parseEntry = .ok rs) (he : e ∈ es) :
    ∃ height checksum, Pins e height checksum := by
  induction es generalizing rs with
  | nil => simp at he
  | cons e' es ih =>
    simp only [List.mapM_cons, bind_eq_ok, pure_eq_ok] at hread
    obtain ⟨⟨height, checksum⟩, he', rs, hes, -⟩ := hread
    rcases List.mem_cons.1 he with rfl | he
    · exact ⟨height, checksum, parseEntry_eq_ok.1 he'⟩
    · exact ih hes he

/-- Every entry of a table that is read is about a height. -/
theorem exists_pins (hread : parse table = .ok c) (he : e ∈ table.entries) :
    ∃ height checksum, Pins e height checksum := by
  obtain ⟨rs, hrs, -⟩ := map_eq_ok.1 hread
  exact exists_pins_of_mapM hrs he

open Classical in
/-- Where a height has an entry, some entry prevails. -/
theorem exists_prevails (he : e ∈ es) (hpins : Pins e height checksum) :
    ∃ e' ∈ es, e.1 ≤ e'.1 ∧ ∃ x, Pins e' height x ∧ Prevails es height x := by
  have hmem : e ∈ es.toFinset.filter fun e => ∃ x, Pins e height x := by
    simpa using ⟨he, checksum, hpins⟩
  obtain ⟨e', he', hgreatest⟩ := Finset.exists_max_image _ Prod.fst ⟨e, hmem⟩
  obtain ⟨hin, x, hx⟩ : e' ∈ es ∧ ∃ x, Pins e' height x := by simpa using he'
  exact ⟨e', hin, hgreatest e hmem, x, hx, e', hin, hx, fun a ha y hy =>
    hgreatest a (by simpa using ⟨ha, y, hy⟩)⟩

/-- Where a configuration gives a table of checkpoints, all its entries are about heights, and the parameters pin
for each height the checksum of the entry whose text comes last, and no more heights. So an entry is lost where a
later text has the same height, and only there. -/
theorem configured_checkpoints (c : Config) (p : Parameters) (table : SortedMap String String)
    (htable : c.checkpoints = some table) (h : c.parameters = .ok p) :
    (∀ e ∈ table.entries, ∃ height checksum, Pins e height checksum ∧
      (p.checkpoints.get? height = some checksum ∨
        ∃ e' ∈ table.entries, ∃ x, e.1 < e'.1 ∧ Pins e' height x ∧ p.checkpoints.get? height = some x)) ∧
    ∀ height checksum, p.checkpoints.get? height = some checksum ↔ Prevails table.entries height checksum := by
  obtain ⟨network, parsed, -, -, hparsed, rfl⟩ := Config.parameters_eq_ok.1 h
  have hread : parse table = .ok parsed := by simpa [Config.mergedTable, htable] using hparsed
  have hget : ∀ height checksum,
      parsed.get? height = some checksum ↔ Prevails table.entries height checksum :=
    fun height checksum => get?_parse hread
  refine ⟨fun e he => ?_, hget⟩
  obtain ⟨height, checksum, hpins⟩ := exists_pins hread he
  obtain ⟨e', he', hle, x, hx, hprevails⟩ := exists_prevails he hpins
  refine ⟨height, checksum, hpins, ?_⟩
  rcases eq_or_lt_of_le hle with heq | hlt
  · obtain rfl := SortedMap.eq_of_mem he he' heq
    obtain rfl := (hpins.unique hx).2
    exact .inl ((hget _ _).2 hprevails)
  · exact .inr ⟨e', he', x, hlt, hx, (hget _ _).2 hprevails⟩

/-- A text among blanks with a sign, and two texts for one height. -/
def spelled : SortedMap String String := .ofList [("5", "0xA"), (" +7 ", "c"), ("05", "0Xb")]

theorem spelled_parameters : ({ checkpoints := some spelled } : Config).parameters =
    .ok { Parameters.regtest with checkpoints := .ofList [(5, 0xa), (7, 0xc)] } :=
  Config.parameters_eq_ok.2 ⟨.regtest, _, rfl,
    ⟨by simp, by simp, by decide, by simp, by simp, by simp⟩, rfl, rfl⟩

/-- Of the two texts for one height, the shorter comes last. -/
theorem configured_checkpoints_spelled :
    ({ checkpoints := some spelled } : Config).parameters =
      .ok { Parameters.regtest with checkpoints := .ofList [(5, 0xa), (7, 0xc)] } ∧
    Prevails spelled.entries 5 0xa ∧ Prevails spelled.entries 7 0xc ∧ ¬ Prevails spelled.entries 5 0xb := by
  obtain ⟨-, hget⟩ := configured_checkpoints _ _ spelled rfl spelled_parameters
  exact ⟨spelled_parameters, (hget _ _).1 rfl, (hget _ _).1 rfl, fun h =>
    absurd ((hget _ _).2 h) (by decide)⟩

/-- A checkpoint is lost, though its entry can be read. -/
theorem configured_checkpoint_lost :
    ¬ ∀ (c : Config) (p : Parameters) (table : SortedMap String String),
      c.checkpoints = some table → c.parameters = .ok p →
      ∀ e ∈ table.entries, ∀ height checksum, Pins e height checksum →
        p.checkpoints.get? height = some checksum := by
  intro hkept
  have hpins : Pins ("05", "0Xb") 5 0xb := parseEntry_eq_ok.1 rfl
  have hget := hkept _ _ spelled rfl spelled_parameters _ (by decide) 5 0xb hpins
  exact absurd hget (by decide)

end Checkpoints

end StakeChain
