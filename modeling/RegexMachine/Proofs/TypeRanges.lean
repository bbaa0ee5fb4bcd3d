import RegexMachine.Proofs.PropertyLookups
import RegexMachine.Proofs.RangeTables

/-!
What an encoding sees of a range table. Tables are cut after the largest codes of the one-byte encodings,
so that the ranges of a table which begin within an encoding also end there, and the codes of a type are
those of its ranges. This holds of the named types and of every property that a lookup finds.
-/
namespace RegexMachine

variable {c top : Nat}

namespace RangeTable

variable {t : RangeTable} {rs : List CodeRange} {r : CodeRange}

/-! ## Front parts of tables -/

/-- The ranges left out begin too late to hold a code up to the limit. -/
theorem covers_upTo (ht : Ascending 0 t.toList) (hc : c ≤ top) :
    Covers (t.upTo top) c ↔ Covers t.toList c := by
  unfold upTo
  generalize t.toList = rs at ht
  induction rs with
  | nil => rfl
  | cons r rs ih =>
    rw [List.takeWhile_cons]
    split
    · rw [covers_cons, covers_cons, ih ht.tail]
    · rename_i hlate
      rw [decide_eq_true_eq] at hlate
      have hr := ht.head
      have hnone : ¬ Covers (r :: rs) c := by
        rw [covers_cons]
        rintro (⟨hlo, -⟩ | hrest)
        · omega
        · have := ht.lt_of_covers hrest
          omega
      exact iff_of_false covers_nil hnone

/-- No part of a range reaches beyond a limit that it begins within. -/
theorem cut_within {ls : List Nat} (hls : ls.Pairwise (· < ·)) (hr : r.lo ≤ r.hi) :
    ∀ b ∈ cut ls r, ∀ l ∈ ls, b.lo ≤ l → b.hi ≤ l := by
  induction ls generalizing r with
  | nil => simp
  | cons l ls ih =>
    obtain ⟨hlater, hls⟩ := List.pairwise_cons.mp hls
    unfold cut
    split
    · rename_i hcut
      rw [Bool.and_eq_true, decide_eq_true_eq, decide_eq_true_eq] at hcut
      have hrest : (⟨l + 1, r.hi⟩ : CodeRange).lo ≤ r.hi := hcut.2
      refine List.forall_mem_cons.mpr ⟨List.forall_mem_cons.mpr ⟨fun _ => Nat.le_refl l,
        fun l' hl' _ => Nat.le_of_lt (hlater l' hl')⟩, fun b hb => ?_⟩
      have hlo : l + 1 ≤ b.lo := ((ascending_cut ls hrest).2 b hb).1
      exact List.forall_mem_cons.mpr ⟨fun hle => by omega, ih hls hrest b hb⟩
    · rename_i hcut
      rw [Bool.and_eq_true, decide_eq_true_eq, decide_eq_true_eq] at hcut
      refine fun b hb => List.forall_mem_cons.mpr ⟨fun hle => ?_, ih hls hr b hb⟩
      have := (ascending_cut ls hr).2 b hb
      omega

/-- A table that is cut has a front part for each limit, which holds the codes up to it. Code points end
where the last encoding does, so that no cut is needed there. -/
theorem covers_upTo_splitAtLimits (h : Ascending 0 rs)
    (htop : top ∈ limits ∨ ∀ r ∈ rs, r.hi ≤ top) :
    Covers (upTo (splitAtLimits rs).toArray top) c ↔ Covers rs c ∧ c ≤ top := by
  have hsplit : Ascending 0 (splitAtLimits rs).toArray.toList := ascending_splitAtLimits h
  have hends : ∀ b ∈ splitAtLimits rs, b.lo ≤ top → b.hi ≤ top := by
    intro b hb hlo
    obtain ⟨r, hr, hb⟩ := List.mem_flatMap.mp hb
    rcases htop with hlimit | htop
    · exact cut_within (by decide) (h.upright r hr) b hb top hlimit hlo
    · exact Nat.le_trans ((ascending_cut limits (h.upright r hr)).2 b hb).2 (htop r hr)
  have hle : Covers (upTo (splitAtLimits rs).toArray top) c → c ≤ top := by
    rintro ⟨b, hb, -, hhi⟩
    have hlo := of_decide_eq_true (List.all_eq_true.mp List.all_takeWhile b hb)
    exact Nat.le_trans hhi (hends b ((List.takeWhile_sublist _).mem hb) hlo)
  constructor
  · intro hc
    exact ⟨covers_splitAtLimits.mp ((covers_upTo hsplit (hle hc)).mp hc), hle hc⟩
  · rintro ⟨hc, htop⟩
    exact (covers_upTo hsplit htop).mpr (covers_splitAtLimits.mpr hc)

end RangeTable

/-! ## Properties that have a name -/

namespace Unicode

theorem BinaryProperty.upright_members (p : BinaryProperty) : ∀ r ∈ p.members.ranges, r.lo ≤ r.hi := by
  have hall : ∀ r ∈ ((categories p.within).union ⟨RangeText.decode p.also⟩).ranges, r.lo ≤ r.hi :=
    fun r hr => (List.mem_append.mp hr).elim (RangeText.upright_decode _ r) (upright_categories _ r)
  have hexcept := CodeSet.ascending_complement (s := ⟨RangeText.decode p.except⟩)
    (RangeText.upright_decode _) 0x10FFFF
  exact (CodeSet.ascending_normalize (CodeSet.ascending_inter hall hexcept.upright).upright).upright

theorem Script.upright_members (s : Script) : ∀ r ∈ s.members.ranges, r.lo ≤ r.hi :=
  (CodeSet.ascending_normalize (RangeText.upright_decode s.text)).upright

theorem Script.upright_extensions (s : Script) : ∀ r ∈ s.extensions.ranges, r.lo ≤ r.hi := by
  have htexts : ∀ entries ⊆ shared.map fun e => (e.1, CodeSet.mk (RangeText.decode e.2)),
      ∀ r ∈ (CodeSet.unionAll (entries.map (·.2))).ranges, r.lo ≤ r.hi := by
    intro entries hentries
    refine CodeSet.upright_unionAll fun s hs => ?_
    obtain ⟨e, he, rfl⟩ := List.mem_map.mp hs
    obtain ⟨e', -, rfl⟩ := List.mem_map.mp (hentries he)
    exact RangeText.upright_decode e'.2
  have helsewhere := CodeSet.ascending_complement (htexts _ (List.Subset.refl _)) 0x10FFFF
  have hown := CodeSet.ascending_inter s.upright_members helsewhere.upright
  refine (CodeSet.ascending_normalize fun r hr => ?_).upright
  rcases List.mem_append.mp hr with hr | hr
  · exact htexts _ List.filter_sublist.subset r hr
  · exact hown.upright r hr

theorem Version.upright_charactersOf? (name : String) (vs : List Version) :
    ∀ s ∈ charactersOf? name vs, ∀ r ∈ s.ranges, r.lo ≤ r.hi := by
  induction vs with
  | nil => simp [charactersOf?]
  | cons v vs ih =>
    have hadded := RangeText.upright_decode v.added
    unfold charactersOf?
    dsimp only
    split
    · intro s hs
      obtain rfl := Option.mem_some.mp hs
      exact hadded
    · intro s hs
      obtain ⟨s', hs', rfl⟩ := Option.mem_map.mp hs
      exact fun r hr => (List.mem_append.mp hr).elim (hadded r) (ih s' hs' r)

theorem upright_category? (name : String) : ∀ s ∈ category? name, ∀ r ∈ s.ranges, r.lo ≤ r.hi := by
  unfold category?
  split
  · simp
  split
  · simp
  split
  · intro s hs
    obtain rfl := Option.mem_some.mp hs
    exact (CodeSet.ascending_complement (upright_categories _) _).upright
  · intro s hs
    obtain ⟨e, -, rfl⟩ := Option.mem_map.mp hs
    exact upright_categories _

theorem upright_script? (name : String) : ∀ s ∈ script? name, ∀ r ∈ s.ranges, r.lo ≤ r.hi := by
  intro s hs
  obtain ⟨script, -, rfl⟩ := Option.mem_map.mp hs
  exact script.upright_members

theorem upright_found {ps : Option BinaryProperty} :
    ∀ s ∈ ps.map BinaryProperty.members, ∀ r ∈ s.ranges, r.lo ≤ r.hi := by
  intro s hs
  obtain ⟨p, -, rfl⟩ := Option.mem_map.mp hs
  exact p.upright_members

theorem upright_valued? (property value : String) :
    ∀ s ∈ valued? property value, ∀ r ∈ s.ranges, r.lo ≤ r.hi := by
  unfold valued?
  split
  · exact upright_category? value
  split
  · exact upright_script? value
  split
  · intro s hs
    obtain ⟨script, -, rfl⟩ := Option.mem_map.mp hs
    exact script.upright_extensions
  split
  · intro s hs
    obtain ⟨s', hs', rfl⟩ := Option.mem_map.mp hs
    exact (CodeSet.ascending_normalize (Version.upright_charactersOf? _ _ s' hs')).upright
  split
  · exact upright_found
  split
  · exact upright_found
  split
  · exact upright_found
  · simp

/-- Whatever name a set is found by, its ranges have their ends in order. -/
theorem upright_propertySet? (name : List Char) :
    ∀ s ∈ propertySet? name, ∀ r ∈ s.ranges, r.lo ≤ r.hi := by
  have horElse {a b : Option CodeSet} (ha : ∀ s ∈ a, ∀ r ∈ s.ranges, r.lo ≤ r.hi)
      (hb : ∀ s ∈ b, ∀ r ∈ s.ranges, r.lo ≤ r.hi) : ∀ s ∈ (a <|> b), ∀ r ∈ s.ranges, r.lo ≤ r.hi := by
    cases a with
    | none => simpa using hb
    | some _ => simpa using ha
  unfold propertySet?
  split
  · exact upright_valued? _ _
  · refine horElse ?_ (horElse (upright_category? _) (upright_script? _))
    split
    · simp
    · exact upright_found

end Unicode

/-! ## Types -/

/-- A property was found by its name, whatever was looked up before. -/
def Property.Found (p : Property) : Prop :=
  ∃ names name, ((PropertyRegistry.after names).resolve name).1 = some p

theorem Property.Found.ascending {p : Property} (h : p.Found) : Ascending 0 p.table.toList := by
  obtain ⟨names, name, h⟩ := h
  rw [PropertyRegistry.resolve_after] at h
  obtain ⟨n, -, hn⟩ := List.exists_of_findSome?_eq_some h
  simp only [PropertyRegistry.alone, PropertyRegistry.resolve, PropertyRegistry.empty,
    List.find?_nil] at hn
  split at hn
  · split at hn
    · rename_i s hs
      cases hn
      exact RangeTable.ascending_ofSet (Unicode.upright_propertySet? _ s hs)
    · cases hn
  · cases hn

namespace CharType
open Unicode

/-- A type that can be asked for: a named one, or a property that was found. -/
def Known (t : CharType) : Prop := ∀ p, t = .property p → p.Found

theorem upright_union {s t : CodeSet} (hs : ∀ r ∈ s.ranges, r.lo ≤ r.hi)
    (ht : ∀ r ∈ t.ranges, r.lo ≤ r.hi) : ∀ r ∈ (s.union t).ranges, r.lo ≤ r.hi :=
  fun r hr => (List.mem_append.mp hr).elim (ht r) (hs r)

theorem upright_spaceSet : ∀ r ∈ spaceSet.ranges, r.lo ≤ r.hi :=
  (CodeSet.ascending_normalize (upright_union (by decide) (upright_categories _))).upright

theorem upright_graphSet : ∀ r ∈ graphSet.ranges, r.lo ≤ r.hi :=
  (CodeSet.ascending_complement (upright_union upright_spaceSet (upright_categories _)) _).upright

theorem Known.ascending {t : CharType} (h : t.Known) : Ascending 0 t.table.toList := by
  have hset {s : CodeSet} (hs : ∀ r ∈ s.ranges, r.lo ≤ r.hi) : Ascending 0 (RangeTable.ofSet s).toList :=
    RangeTable.ascending_ofSet hs
  cases t with
  | newline => exact hset (by decide)
  | xdigit => exact hset (by decide)
  | ascii => exact hset (by decide)
  | any => exact hset (by decide)
  | alpha => exact hset (upright_categories _)
  | cntrl => exact hset (upright_categories _)
  | digit => exact hset (upright_categories _)
  | lower => exact hset (upright_categories _)
  | upper => exact hset (upright_categories _)
  | word => exact hset (upright_categories _)
  | alnum => exact hset (upright_categories _)
  | blank => exact hset (upright_union (by decide) (upright_categories _))
  | punct => exact hset (upright_union (by decide) (upright_categories _))
  | space => exact hset upright_spaceSet
  | graph => exact hset upright_graphSet
  | print => exact hset (upright_union upright_graphSet (upright_categories _))
  | property p => exact (h p rfl).ascending

/-- Asking a type for a code is asking its table, also where the table is not looked at. -/
theorem Known.holds_iff {t : CharType} (h : t.Known) : t.holds c = true ↔ Covers t.table.toList c := by
  rw [← RangeTable.contains_iff h.ascending]
  cases t with
  | any =>
    rw [show any.table = RangeTable.ofSet ⟨[⟨0, 0x10FFFF⟩]⟩ from rfl,
      RangeTable.contains_ofSet (by decide)]
    simp [holds, CodeSet.contains, CodeRange.contains]
  | newline =>
    rw [show newline.table = RangeTable.ofSet ⟨[⟨0x0A, 0x0A⟩]⟩ from rfl,
      RangeTable.contains_ofSet (by decide)]
    simp only [holds, beq_iff_eq, CodeSet.contains, CodeRange.contains, List.any_cons, List.any_nil,
      Bool.or_false, Bool.and_eq_true, decide_eq_true_eq]
    omega
  | _ => rfl

end CharType

theorem Encoding.hasType_eq {e : Encoding} (hc : c ≤ e.maxCode) (t : CharType) :
    e.hasType c t = t.holds c := by
  cases e with
  | utf8 => rfl
  | ascii =>
    have hlt : c < 0x80 := Nat.lt_succ_of_le hc
    simp [hasType, hlt]
  | latin1 =>
    have hle : c ≤ 0xFF := hc
    simp [hasType, hle]

/-- Ranges across both limits and beyond them. -/
def acrossLimits : List CodeRange := [⟨0x41, 0x120⟩, ⟨0x3041, 0x3096⟩]

/-- The property found by the name `is ascii` where `isASCII` was looked up before. -/
def foundBefore : Property := ⟨"isASCII", RangeTable.ofSet ⟨[⟨0x00, 0x7F⟩]⟩⟩

theorem foundBefore_found : foundBefore.Found := by
  have hset : Unicode.propertySet? "isASCII".toList = some ⟨[⟨0x00, 0x7F⟩]⟩ := by decide +kernel
  have hname : "isASCII".toList.all PropertyRegistry.isNameChar = true := by decide +kernel
  have halone : PropertyRegistry.alone "isASCII" = some foundBefore := by
    simp only [PropertyRegistry.alone, PropertyRegistry.resolve, PropertyRegistry.empty,
      List.find?_nil, hname, if_true, hset, foundBefore]
  have hkey : PropertyRegistry.key "isASCII" = PropertyRegistry.key "is ascii" := by decide +kernel
  refine ⟨["isASCII"], "is ascii", ?_⟩
  rw [PropertyRegistry.resolve_after]
  simp [hkey, halone]

end RegexMachine
