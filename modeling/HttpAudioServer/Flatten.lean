import HttpAudioServer.Metadata

/-! What flattening keeps of a document: under each flattened key the first leaf that has it. -/
namespace HttpAudioServer

mutual

/-- The leaves below a value, in the order of the iteration, with the keys on the way to them. -/
def Json.leaves : Json → List (List Bytes × Json)
  | .object fields => Json.fieldLeaves fields
  | .null => [([], .null)]
  | .boolean b => [([], .boolean b)]
  | .integer i => [([], .integer i)]
  | .float x => [([], .float x)]
  | .string s => [([], .string s)]
  | .array items => [([], .array items)]

def Json.fieldLeaves : List (Bytes × Json) → List (List Bytes × Json)
  | [] => []
  | (key, value) :: fields =>
    (value.leaves.map fun l => (key :: l.1, l.2)) ++ Json.fieldLeaves fields

end

mutual

/-- The keys of an object are distinct, and so on further inside. -/
def Json.DistinctKeys : Json → Prop
  | .object fields => (fields.map Prod.fst).Nodup ∧ Json.DistinctInside fields
  | _ => True

def Json.DistinctInside : List (Bytes × Json) → Prop
  | [] => True
  | (_, value) :: fields => value.DistinctKeys ∧ Json.DistinctInside fields

end

def joinKeys (pre : Bytes) (path : List Bytes) : Bytes := path.foldl tarKey pre

def flattened (fields : List (Bytes × Json)) : List (Bytes × Json) :=
  (Json.fieldLeaves fields).map fun l => (joinKeys [] l.1, l.2)

/-- One entry for each leaf, and its value in it. -/
def LosesNothing (fields : List (Bytes × Json)) : Prop :=
  ∃ data, flaten (.object fields) = .ok data ∧ data.entries.Perm (flattened fields)

mutual

theorem flatenValue_eq (key : Bytes) (tar : Leaves) : ∀ value : Json,
    flatenValue key tar value =
      value.leaves.foldl (fun m l => m.emplace (joinKeys key l.1) l.2) tar
  | .object fields => by
    rw [flatenValue, Json.leaves]
    exact flatenFields_eq key tar fields
  | .null | .boolean _ | .integer _ | .float _ | .string _ | .array _ => by
    rw [flatenValue, Json.leaves]
    rfl

theorem flatenFields_eq (pre : Bytes) (tar : Leaves) : ∀ fields : List (Bytes × Json),
    flatenFields pre tar fields =
      (Json.fieldLeaves fields).foldl (fun m l => m.emplace (joinKeys pre l.1) l.2) tar
  | [] => by
    rw [flatenFields, Json.fieldLeaves]
    rfl
  | (key, value) :: fields => by
    rw [flatenFields, Json.fieldLeaves, List.foldl_append, List.foldl_map, flatenValue_eq,
      flatenFields_eq]
    rfl

end

theorem flaten_object (fields : List (Bytes × Json)) :
    ∃ data, flaten (.object fields) = .ok data ∧
      ∀ key, data.find key = (flattened fields).at key := by
  refine ⟨_, rfl, fun key => ?_⟩
  have entries := OrderedMap.find_emplace_all (flattened fields) key .empty
  rw [OrderedMap.find_empty, Option.none_or, flattened, List.foldl_map] at entries
  rw [flatenFields_eq]
  exact entries

/-- Nothing is lost where the flattened keys are distinct, and only there. -/
theorem losesNothing_iff_nodup (fields : List (Bytes × Json)) :
    LosesNothing fields ↔ ((flattened fields).map Prod.fst).Nodup := by
  obtain ⟨data, result, finds⟩ := flaten_object fields
  constructor
  · rintro ⟨data', result', perm⟩
    exact (perm.map Prod.fst).nodup_iff.mp data'.nodup_keys
  · intro nodup
    refine ⟨data, result, (List.perm_ext_iff_of_nodup data.nodup_entries (.of_map _ nodup)).mpr ?_⟩
    intro e
    exact OrderedMap.mem_entries_iff.trans (finds e.1 ▸ OrderedMap.at_of_nodup nodup)

section Keys

theorem joinKeys_below {pre : Bytes} (some_key : pre ≠ []) (path : List Bytes) :
    joinKeys pre path = pre ++ path.flatMap (str "::" ++ ·) := by
  unfold joinKeys
  induction path generalizing pre with
  | nil => simp
  | cons key path ih =>
    rw [List.foldl_cons, tarKey, if_neg some_key, ih (by simp [str]), List.flatMap_cons]
    simp

theorem joinKeys_top {key : Bytes} {path : List Bytes} (top : key = [] → path = []) :
    joinKeys [] (key :: path) = key ++ path.flatMap (str "::" ++ ·) := by
  change joinKeys key path = _
  by_cases empty : key = []
  · rw [top empty, empty]
    rfl
  · exact joinKeys_below empty path

theorem before_colon {a b r s : Bytes} (a_plain : 58 ∉ a) (b_plain : 58 ∉ b)
    (r_begins : ∀ ch ∈ r.head?, ch = 58) (s_begins : ∀ ch ∈ s.head?, ch = 58)
    (same : a ++ r = b ++ s) : a = b ∧ r = s := by
  have until_colon {c t : Bytes} (plain : 58 ∉ c) (begins : ∀ ch ∈ t.head?, ch = 58) :
      (c ++ t).takeWhile (· ≠ 58) = c := by
    have inside : ∀ ch ∈ c, decide (ch ≠ 58) = true := fun ch member =>
      decide_eq_true fun colon => plain (by rwa [← colon])
    rw [List.takeWhile_append_of_pos inside]
    cases t with
    | nil => simp
    | cons ch t => simp [begins ch rfl]
  have first : a = b := by
    rw [← until_colon a_plain r_begins, same, until_colon b_plain s_begins]
  subst first
  exact ⟨rfl, List.append_cancel_left same⟩

theorem joined_begins (path : List Bytes) : ∀ ch ∈ (path.flatMap (str "::" ++ ·)).head?, ch = 58 := by
  cases path with
  | nil => simp
  | cons key path => simp [str, String.utf8EncodeChar]

theorem joined_injective {path path' : List Bytes} (plain : ∀ key ∈ path, 58 ∉ key)
    (plain' : ∀ key ∈ path', 58 ∉ key)
    (same : path.flatMap (str "::" ++ ·) = path'.flatMap (str "::" ++ ·)) : path = path' := by
  induction path generalizing path' with
  | nil =>
    cases path' with
    | nil => rfl
    | cons key' path' => simp [str] at same
  | cons key path ih =>
    cases path' with
    | nil => simp [str] at same
    | cons key' path' =>
      rw [List.flatMap_cons, List.flatMap_cons, List.append_assoc, List.append_assoc] at same
      obtain ⟨rfl, rest⟩ := before_colon (plain key List.mem_cons_self)
        (plain' key' List.mem_cons_self) (joined_begins path) (joined_begins path')
        (List.append_cancel_left same)
      rw [ih (fun k member => plain k (List.mem_cons_of_mem _ member))
        (fun k member => plain' k (List.mem_cons_of_mem _ member)) rest]

/-- No colons in the keys, and no object under an empty key at the top. -/
def PlainPath (path : List Bytes) : Prop :=
  (∀ key ∈ path, 58 ∉ key) ∧ ∀ rest, path = [] :: rest → rest = []

theorem joinKeys_injective {key key' : Bytes} {path path' : List Bytes}
    (plain : PlainPath (key :: path)) (plain' : PlainPath (key' :: path'))
    (same : joinKeys [] (key :: path) = joinKeys [] (key' :: path')) :
    key :: path = key' :: path' := by
  rw [joinKeys_top fun empty => plain.2 path (by rw [empty]),
    joinKeys_top fun empty => plain'.2 path' (by rw [empty])] at same
  obtain ⟨rfl, rest⟩ := before_colon (plain.1 key List.mem_cons_self)
    (plain'.1 key' List.mem_cons_self) (joined_begins path) (joined_begins path') same
  rw [joined_injective (fun k member => plain.1 k (List.mem_cons_of_mem _ member))
    (fun k member => plain'.1 k (List.mem_cons_of_mem _ member)) rest]

end Keys

section Paths

variable {fields : List (Bytes × Json)}

theorem leaf_path {path : List Bytes} (member : path ∈ (Json.fieldLeaves fields).map Prod.fst) :
    ∃ key ∈ fields.map Prod.fst, ∃ rest, path = key :: rest := by
  induction fields with
  | nil => simp [Json.fieldLeaves] at member
  | cons field fields ih =>
    obtain ⟨key, value⟩ := field
    rw [Json.fieldLeaves, List.map_append, List.mem_append, List.map_map] at member
    rcases member with here | later
    · obtain ⟨l, -, rfl⟩ := List.mem_map.mp here
      exact ⟨key, List.mem_cons_self, l.1, rfl⟩
    · obtain ⟨key', there, rest, rfl⟩ := ih later
      exact ⟨key', List.mem_cons_of_mem _ there, rest, rfl⟩

mutual

theorem leaves_nodup : ∀ {value : Json}, value.DistinctKeys → (value.leaves.map Prod.fst).Nodup
  | .object fields, distinct => by
    rw [Json.DistinctKeys] at distinct
    rw [Json.leaves]
    exact fieldLeaves_nodup distinct.1 distinct.2
  | .null, _ | .boolean _, _ | .integer _, _ | .float _, _ | .string _, _ | .array _, _ => by
    rw [Json.leaves]
    exact List.nodup_singleton _

theorem fieldLeaves_nodup : ∀ {fields : List (Bytes × Json)}, (fields.map Prod.fst).Nodup →
    Json.DistinctInside fields → ((Json.fieldLeaves fields).map Prod.fst).Nodup
  | [], _, _ => by
    rw [Json.fieldLeaves]
    exact List.nodup_nil
  | (key, value) :: fields, distinct, inside => by
    rw [Json.DistinctInside] at inside
    rw [List.map_cons, List.nodup_cons] at distinct
    rw [Json.fieldLeaves, List.map_append, List.map_map]
    refine List.Nodup.append ?_ (fieldLeaves_nodup distinct.2 inside.2) ?_
    · have below := (leaves_nodup inside.1).map (List.cons_injective (a := key))
      rwa [List.map_map] at below
    · intro path here later
      obtain ⟨l, -, rfl⟩ := List.mem_map.mp here
      obtain ⟨key', there, rest, same⟩ := leaf_path later
      cases same
      exact distinct.1 there

end

end Paths

theorem losesNothing_of_plain {fields : List (Bytes × Json)}
    (distinct : (Json.object fields).DistinctKeys)
    (plain : ∀ l ∈ Json.fieldLeaves fields, PlainPath l.1) : LosesNothing fields := by
  rw [Json.DistinctKeys] at distinct
  have keys : (flattened fields).map Prod.fst =
      ((Json.fieldLeaves fields).map Prod.fst).map (joinKeys []) := by
    rw [flattened, List.map_map, List.map_map]
    rfl
  rw [losesNothing_iff_nodup, keys]
  refine (fieldLeaves_nodup distinct.1 distinct.2).map_on fun path here path' there same => ?_
  obtain ⟨key, -, rest, rfl⟩ := leaf_path here
  obtain ⟨key', -, rest', rfl⟩ := leaf_path there
  obtain ⟨l, leaf, is_path⟩ := List.mem_map.mp here
  obtain ⟨l', leaf', is_path'⟩ := List.mem_map.mp there
  exact joinKeys_injective (is_path ▸ plain l leaf) (is_path' ▸ plain l' leaf') same

/-- Under each flattened key there is one entry, of the first leaf with that key. There is one for
each leaf exactly if their flattened keys are distinct. So it is if no key on the way to a leaf
has a colon in it, and no object at the top stands under an empty key. -/
theorem flaten_keeps_first (fields : List (Bytes × Json)) :
    (∃ data, flaten (.object fields) = .ok data ∧
      ∀ key, data.find key = (flattened fields).at key) ∧
    (LosesNothing fields ↔ ((flattened fields).map Prod.fst).Nodup) ∧
    ((Json.object fields).DistinctKeys → (∀ l ∈ Json.fieldLeaves fields, PlainPath l.1) →
      LosesNothing fields) :=
  ⟨flaten_object fields, losesNothing_iff_nodup fields, losesNothing_of_plain⟩

/-- `{"a": {"b": 2}, "a::b": 1}`, with two leaves that have one flattened key. -/
def colliding : List (Bytes × Json) :=
  [(str "a", .object [(str "b", .integer 2)]), (str "a::b", .integer 1)]

theorem colliding_loses : ¬ ∀ fields : List (Bytes × Json), (Json.object fields).DistinctKeys →
    LosesNothing fields := by
  intro lossless
  have distinct : (Json.object colliding).DistinctKeys := by
    simp only [Json.DistinctKeys, colliding, Json.DistinctInside]
    decide
  have nodup := (losesNothing_iff_nodup colliding).mp (lossless colliding distinct)
  revert nodup
  decide

end HttpAudioServer
