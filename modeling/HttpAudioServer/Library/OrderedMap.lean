import Mathlib.Data.List.Basic
import Mathlib.Data.List.Pairwise
import Mathlib.Data.List.Nodup

/-! Maps that keep their entries in the order of the keys, each key at most once. A map is known
by what is found in it, and its first entry with a property is the one with the least key. -/

/-- What has been placed under a key, from a list of entries. -/
def List.at {α β : Type} [DecidableEq α] (entries : List (α × β)) (key : α) : Option β :=
  (entries.find? fun e => e.1 = key).map Prod.snd

structure OrderedMap (α β : Type) [LT α] where
  entries : List (α × β)
  sorted : entries.Pairwise fun e f => e.1 < f.1

namespace OrderedMap

variable {α β : Type}

section Entries

variable [LT α] [DecidableLT α] [DecidableEq α]

/-- The entry goes before the first larger key, unless there is one with its key. -/
def emplaceEntry (key : α) (value : β) : List (α × β) → List (α × β)
  | [] => [(key, value)]
  | e :: entries =>
    if e.1 < key then e :: emplaceEntry key value entries
    else if e.1 = key then e :: entries
    else (key, value) :: e :: entries

theorem mem_emplaceEntry {key : α} {value : β} {entries : List (α × β)} {e : α × β}
    (member : e ∈ emplaceEntry key value entries) : e = (key, value) ∨ e ∈ entries := by
  induction entries with
  | nil => exact .inl (List.mem_singleton.mp member)
  | cons f entries ih =>
    unfold emplaceEntry at member
    split at member
    · rcases List.mem_cons.mp member with rfl | later
      · exact .inr List.mem_cons_self
      · exact (ih later).imp_right (List.mem_cons_of_mem f)
    · split at member
      · exact .inr member
      · exact List.mem_cons.mp member

variable [Std.Trichotomous fun a b : α => a < b]
  [Trans (fun a b : α => a < b) (fun a b : α => a < b) (fun a b : α => a < b)]

theorem sorted_emplaceEntry (key : α) (value : β) {entries : List (α × β)}
    (sorted : entries.Pairwise fun e f => e.1 < f.1) :
    (emplaceEntry key value entries).Pairwise fun e f => e.1 < f.1 := by
  induction entries with
  | nil => exact List.pairwise_singleton _ _
  | cons e entries ih =>
    obtain ⟨least, rest⟩ := List.pairwise_cons.mp sorted
    unfold emplaceEntry
    split
    case isTrue below =>
      refine List.pairwise_cons.mpr ⟨fun f member => ?_, ih rest⟩
      rcases mem_emplaceEntry member with rfl | later
      · exact below
      · exact least f later
    case isFalse not_below =>
      split
      case isTrue => exact sorted
      case isFalse other =>
        have above : key < e.1 := by
          by_contra not_above
          exact other (Std.Trichotomous.trichotomous _ _ not_below not_above)
        refine List.pairwise_cons.mpr ⟨fun f member => ?_, sorted⟩
        rcases List.mem_cons.mp member with rfl | later
        · exact above
        · exact Std.lt_trans above (least f later)

end Entries

section Lookups

variable [DecidableEq α]

@[simp] theorem at_nil (key : α) : ([] : List (α × β)).at key = none := rfl

theorem at_cons (e : α × β) (entries : List (α × β)) (key : α) :
    (e :: entries).at key = if e.1 = key then some e.2 else entries.at key := by
  unfold List.at
  rw [List.find?_cons]
  by_cases same : e.1 = key <;> simp [same]

theorem at_eq_none {entries : List (α × β)} {key : α} :
    entries.at key = none ↔ ∀ e ∈ entries, e.1 ≠ key := by
  unfold List.at
  rw [Option.map_eq_none_iff, List.find?_eq_none]
  simp

theorem at_of_nodup {entries : List (α × β)} (nodup : (entries.map Prod.fst).Nodup) {key : α}
    {value : β} : entries.at key = some value ↔ (key, value) ∈ entries := by
  induction entries with
  | nil => simp
  | cons e entries ih =>
    rw [List.map_cons, List.nodup_cons] at nodup
    rw [at_cons, List.mem_cons, ← ih nodup.2]
    by_cases same : e.1 = key
    · have absent : entries.at key = none := at_eq_none.mpr fun f later equal =>
        nodup.1 (List.mem_map.mpr ⟨f, later, equal.trans same.symm⟩)
      rw [if_pos same, absent]
      grind
    · rw [if_neg same]
      grind

end Lookups

variable [LT α]

def empty : OrderedMap α β := ⟨[], List.Pairwise.nil⟩

/-- From the first key that is not less on. -/
def lowerBound [DecidableLT α] (key : α) (m : OrderedMap α β) : List (α × β) :=
  m.entries.dropWhile fun e => e.1 < key

def adjust [DecidableEq α] (key : α) (f : β → β) (m : OrderedMap α β) : OrderedMap α β where
  entries := m.entries.map fun e => if e.1 = key then (e.1, f e.2) else e
  sorted := by
    refine List.pairwise_map.mpr (m.sorted.imp fun {e f} less => ?_)
    split <;> split <;> exact less

def erase [DecidableEq α] (key : α) (m : OrderedMap α β) : OrderedMap α β :=
  ⟨m.entries.filter fun e => e.1 ≠ key, m.sorted.filter _⟩

def first (p : α → Bool) (m : OrderedMap α β) : Option (α × β) := m.entries.find? fun e => p e.1

def find [DecidableEq α] (key : α) (m : OrderedMap α β) : Option β := m.entries.at key

theorem nodup_keys [Std.Irrefl fun a b : α => a < b] (m : OrderedMap α β) :
    (m.entries.map Prod.fst).Nodup := by
  refine List.pairwise_map.mpr (m.sorted.imp fun less equal => ?_)
  rw [equal] at less
  exact Std.lt_irrefl less

theorem nodup_entries [Std.Irrefl fun a b : α => a < b] (m : OrderedMap α β) : m.entries.Nodup :=
  List.Nodup.of_map Prod.fst m.nodup_keys

theorem lowerBound_eq [DecidableLT α]
    [Trans (fun a b : α => a < b) (fun a b : α => a < b) (fun a b : α => a < b)]
    (key : α) (m : OrderedMap α β) :
    m.lowerBound key = m.entries.filter fun e => ¬ e.1 < key := by
  unfold lowerBound
  obtain ⟨entries, sorted⟩ := m
  simp only
  induction entries with
  | nil => rfl
  | cons e entries ih =>
    obtain ⟨least, rest⟩ := List.pairwise_cons.mp sorted
    rw [List.dropWhile_cons, List.filter_cons]
    by_cases below : e.1 < key
    · simpa [below] using ih rest
    · have above : entries.filter (fun e => ¬ e.1 < key) = entries :=
        List.filter_eq_self.mpr fun f later =>
          decide_eq_true fun less => below (Std.lt_trans (least f later) less)
      simp only [below, decide_false, not_false_eq_true, decide_true, if_true, above]
      rfl

theorem first_matches {m : OrderedMap α β} {p : α → Bool} {e : α × β} (found : m.first p = some e) :
    e ∈ m.entries ∧ p e.1 = true :=
  ⟨List.mem_of_find?_eq_some found, (List.find?_eq_some_iff_append.mp found).1⟩

theorem first_least {m : OrderedMap α β} {p : α → Bool} {e f : α × β}
    (found : m.first p = some e) (member : f ∈ m.entries) (matched : p f.1 = true) : f = e ∨ e.1 < f.1 := by
  obtain ⟨-, before, after, split, skipped⟩ := List.find?_eq_some_iff_append.mp found
  have sorted := m.sorted
  rw [split] at member sorted
  rcases List.mem_append.mp member with early | late
  · have passed := skipped f early
    simp [matched] at passed
  · obtain ⟨above, -⟩ := List.pairwise_cons.mp (List.pairwise_append.mp sorted).2.1
    exact (List.mem_cons.mp late).imp_right (above f)

variable [DecidableEq α] {m n : OrderedMap α β} {key k : α} {value : β}

@[simp] theorem find_empty (key : α) : (empty : OrderedMap α β).find key = none := rfl

theorem find_adjust (key k : α) (f : β → β) (m : OrderedMap α β) :
    (m.adjust key f).find k = if k = key then (m.find k).map f else m.find k := by
  unfold find adjust
  simp only
  induction m.entries with
  | nil => simp
  | cons e entries ih =>
    rw [List.map_cons, at_cons, at_cons, ih]
    grind

theorem first_erase {p : α → Bool} (other : p key = false) : (m.erase key).first p = m.first p := by
  unfold first erase
  rw [List.find?_filter]
  refine congrArg (List.find? · _) (funext fun e => ?_)
  by_cases same : e.1 = key
  · simp [same, other]
  · simp [same]

section Order

variable [Std.Irrefl fun a b : α => a < b]

theorem mem_entries_iff : (k, value) ∈ m.entries ↔ m.find k = some value :=
  (at_of_nodup m.nodup_keys).symm

theorem first_eq_some {p : α → Bool}
    [Trans (fun a b : α => a < b) (fun a b : α => a < b) (fun a b : α => a < b)] :
    m.first p = some (k, value) ↔
      m.find k = some value ∧ p k = true ∧ ∀ k', p k' = true → m.find k' ≠ none → ¬ k' < k := by
  rw [← mem_entries_iff]
  constructor
  · intro found
    obtain ⟨member, matched⟩ := first_matches found
    refine ⟨member, matched, fun k' matched' present less => ?_⟩
    obtain ⟨value', there⟩ := Option.ne_none_iff_exists'.mp present
    rcases first_least found (mem_entries_iff.mpr there) matched' with equal | above
    · cases equal
      exact Std.lt_irrefl less
    · exact Std.lt_irrefl (Std.lt_trans less above)
  · rintro ⟨member, matched, least⟩
    cases found : m.first p with
    | none => exact absurd matched (List.find?_eq_none.mp found _ member)
    | some e =>
      rcases first_least found member matched with equal | above
      · rw [equal]
      · obtain ⟨member', matched'⟩ := first_matches found
        have there := mem_entries_iff.mp member'
        exact absurd above (least e.1 matched' (by rw [there]; exact Option.some_ne_none _))

theorem first_eq_none {p : α → Bool} :
    m.first p = none ↔ ∀ k, p k = true → m.find k = none := by
  unfold first
  rw [List.find?_eq_none]
  constructor
  · intro unmatched k matched
    exact at_eq_none.mpr fun e member same => unmatched e member (same ▸ matched)
  · intro absent e member matched
    have there := mem_entries_iff.mp member
    rw [absent e.1 matched] at there
    contradiction

variable [Trans (fun a b : α => a < b) (fun a b : α => a < b) (fun a b : α => a < b)]

theorem first_congr {p : α → Bool}
    (same : ∀ k, p k = true → m.find k = n.find k) : m.first p = n.first p := by
  cases found : n.first p with
  | none =>
    have absent := first_eq_none.mp found
    exact first_eq_none.mpr fun k matched => (same k matched).trans (absent k matched)
  | some e =>
    obtain ⟨k, value⟩ := e
    obtain ⟨there, matched, least⟩ := first_eq_some.mp found
    refine first_eq_some.mpr ⟨(same k matched).trans there, matched, fun k' matched' present => ?_⟩
    rw [same k' matched'] at present
    exact least k' matched' present

variable [DecidableLT α] [Std.Trichotomous fun a b : α => a < b]

/-- A key that is there keeps its value. -/
def emplace (key : α) (value : β) (m : OrderedMap α β) : OrderedMap α β :=
  ⟨emplaceEntry key value m.entries, sorted_emplaceEntry key value m.sorted⟩

theorem find_emplace (key k : α) (value : β) (m : OrderedMap α β) :
    (m.emplace key value).find k =
      if k = key then some ((m.find key).getD value) else m.find k := by
  unfold find emplace
  obtain ⟨entries, sorted⟩ := m
  simp only
  induction entries with
  | nil =>
    rw [emplaceEntry, at_cons]
    grind [at_nil]
  | cons e entries ih =>
    obtain ⟨least, rest⟩ := List.pairwise_cons.mp sorted
    rw [emplaceEntry]
    split
    case isTrue below =>
      have other : e.1 ≠ key := fun equal => Std.lt_irrefl (equal ▸ below)
      rw [at_cons, at_cons, at_cons, ih rest]
      grind
    case isFalse not_below =>
      split
      case isTrue same =>
        rw [at_cons, at_cons]
        grind
      case isFalse other =>
        have above : key < e.1 := by
          by_contra not_above
          exact other (Std.Trichotomous.trichotomous _ _ not_below not_above)
        have absent : entries.at key = none := at_eq_none.mpr fun f later equal =>
          Std.lt_irrefl (Std.lt_trans above (equal ▸ least f later))
        rw [at_cons, at_cons, at_cons, absent]
        grind

/-- Of the entries with one key the first one stays. -/
theorem find_emplace_all (entries : List (α × β)) (k : α) (m : OrderedMap α β) :
    (entries.foldl (fun m e => m.emplace e.1 e.2) m).find k = (m.find k).or (entries.at k) := by
  induction entries generalizing m with
  | nil => rw [List.foldl_nil, at_nil, Option.or_none]
  | cons e entries ih =>
    rw [List.foldl_cons, ih, find_emplace, at_cons]
    by_cases same : k = e.1
    · subst same
      rw [if_pos rfl, if_pos rfl, Option.some_or]
      cases m.find e.1 <;> rfl
    · rw [if_neg same, if_neg (Ne.symm same)]

end Order

end OrderedMap
