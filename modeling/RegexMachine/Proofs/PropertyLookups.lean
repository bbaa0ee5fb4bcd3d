import RegexMachine.Encoding.CharType

/-!
What looking up a property depends on. A name is first compared with the names that were looked up
before, and these are told apart by their keys alone. So a lookup depends on the earlier ones, but
only on those of names with the same key: the first of these that stands for a property by itself
decides.
-/
namespace RegexMachine.PropertyRegistry

variable {r : PropertyRegistry} {name : String}

/-- The registry after some lookups. -/
def after (names : List String) : PropertyRegistry :=
  names.foldl (fun r name => (r.resolve name).2) empty

/-- What a name stands for where nothing was looked up before. -/
def alone (name : String) : Option Property := (empty.resolve name).1

/-- What was found under a key. -/
def recorded? (r : PropertyRegistry) (k : String) : Option Property :=
  (r.known.find? (·.1 == k)).map (·.2)

/-- A registry after a property was found, or after none was. -/
def record (r : PropertyRegistry) (k : String) : Option Property → PropertyRegistry
  | some p => ⟨(k, p) :: r.known⟩
  | none => r

theorem recorded?_record {p : Option Property} (k k' : String) (h : r.recorded? k = none) :
    (r.record k p).recorded? k' = (r.recorded? k').or (if k = k' then p else none) := by
  cases p with
  | none => simp [record]
  | some p =>
    by_cases hk : k = k'
    · subst hk
      rw [h]
      simp [record, recorded?]
    · simp [record, hk, recorded?]

theorem resolve_of_recorded {p : Property} (h : r.recorded? (key name) = some p) :
    r.resolve name = (some p, r) := by
  obtain ⟨⟨k, q⟩, hfind, rfl⟩ := Option.map_eq_some_iff.mp h
  simp only [resolve, hfind]

theorem resolve_unknown (h : r.recorded? (key name) = none) :
    r.resolve name = (alone name, r.record (key name) (alone name)) := by
  have hfind := Option.map_eq_none_iff.mp h
  simp only [alone, resolve, hfind, empty, List.find?_nil]
  split
  · cases Unicode.propertySet? name.toList <;> rfl
  · rfl

/-- A lookup asks what is recorded, and only then what the name stands for. -/
theorem resolve_fst : (r.resolve name).1 = (r.recorded? (key name)).or (alone name) := by
  cases h : r.recorded? (key name) with
  | some p => rw [resolve_of_recorded h, Option.some_or]
  | none => rw [resolve_unknown h, Option.none_or]

/-- A lookup records a property under the key of the name, unless one is recorded there. -/
theorem recorded?_resolve (k : String) : (r.resolve name).2.recorded? k =
    (r.recorded? k).or (if key name = k then alone name else none) := by
  cases h : r.recorded? (key name) with
  | none => rw [resolve_unknown h, recorded?_record _ _ h]
  | some p =>
    rw [resolve_of_recorded h]
    split
    · rename_i hk
      rw [← hk, h, Option.some_or]
    · rw [Option.or_none]

/-- What is recorded under a key is what the first name stands for that has the key and stands for
anything. -/
theorem recorded?_after (names : List String) (k : String) :
    (after names).recorded? k = (names.filter (key · == k)).findSome? alone := by
  have hall (r : PropertyRegistry) : (names.foldl (fun r name => (r.resolve name).2) r).recorded? k =
      (r.recorded? k).or ((names.filter (key · == k)).findSome? alone) := by
    induction names generalizing r with
    | nil => simp
    | cons name names ih =>
      rw [List.foldl_cons, ih, recorded?_resolve, Option.or_assoc]
      congr 1
      by_cases hk : key name = k
      · rw [List.filter_cons_of_pos (by simpa using hk), if_pos hk, List.findSome?_cons]
        cases alone name <;> rfl
      · rw [List.filter_cons_of_neg (by simpa using hk), if_neg hk, Option.none_or]
  exact hall empty

/-- The earlier lookups decide together with the name itself, those of other keys apart. -/
theorem resolve_after (names : List String) (name : String) :
    ((after names).resolve name).1 =
      ((names ++ [name]).filter (key · == key name)).findSome? alone := by
  rw [resolve_fst, recorded?_after, List.filter_append, List.findSome?_append]
  simp

/-- Where the names of one key agree, earlier lookups change nothing but the spelling. -/
theorem table_resolve_after {names : List String}
    (h : ∀ n ∈ names, key n = key name →
      (alone n).map Property.table = (alone name).map Property.table) :
    ((after names).resolve name).1.map Property.table = (alone name).map Property.table := by
  rw [resolve_fst, recorded?_after]
  cases hfound : (names.filter (key · == key name)).findSome? alone with
  | none => rfl
  | some p =>
    obtain ⟨n, hn, hp⟩ := List.exists_of_findSome?_eq_some hfound
    obtain ⟨hn, hk⟩ := List.mem_filter.mp hn
    rw [← h n hn (beq_iff_eq.mp hk), hp]
    rfl

/-- A name with characters that no name may have stands for nothing, and yet for a property once
another name of its key was looked up. -/
theorem resolve_after_of_not_all {earlier : String} (hkey : key earlier = key name)
    (hbad : name.toList.all isNameChar = false) :
    alone name = none ∧ ((after [earlier]).resolve name).1 = alone earlier := by
  have hnone : alone name = none := by
    simp [alone, resolve, empty, hbad]
  refine ⟨hnone, ?_⟩
  rw [resolve_fst, recorded?_after, hnone, Option.or_none]
  simp [hkey]

example : key "Greek" = key "Gree\u212a" ∧ "Gree\u212a".toList.all isNameChar = false := by
  decide +kernel

end RegexMachine.PropertyRegistry
