import HttpAudioServer.Metadata

/-! The extraction of the fields without the map that it empties: each field is read from a leaf of
its own, in any order. -/
namespace HttpAudioServer

open FloatingPoint

theorem map_eq_ok {ε α β : Type} {f : α → β} {e : Except ε α} {b : β} :
    e.map f = .ok b ↔ ∃ a, e = .ok a ∧ f a = b := by
  cases e <;> simp [Except.map]

namespace MetadataField

theorem mem_all (f : MetadataField) : f ∈ all := by
  cases f <;> decide

theorem patterns_distinct : (all.map fun f => f.pattern.map tolower).Nodup := by
  decide

/-- No key matches two of the expressions. -/
theorem regexMatch_unique {f g : MetadataField} {key : Bytes}
    (matches_f : regexMatch f.pattern key = true) (matches_g : regexMatch g.pattern key = true) :
    f = g := by
  have same_f : key.map tolower = f.pattern.map tolower := of_decide_eq_true matches_f
  have same_g : key.map tolower = g.pattern.map tolower := of_decide_eq_true matches_g
  exact List.inj_on_of_nodup_map patterns_distinct f.mem_all g.mem_all (same_f.symm.trans same_g)

def leaf (f : MetadataField) (data : Leaves) : Json := (getJson f.pattern data).1

theorem leaf_erased {f g : MetadataField} (other : f ≠ g) (data : Leaves) :
    f.leaf (getJson g.pattern data).2 = f.leaf data := by
  unfold leaf
  cases found : data.first (regexMatch g.pattern) with
  | none => simp only [getJson, found]
  | some e =>
    obtain ⟨key, value⟩ := e
    have matches_g : regexMatch g.pattern key = true := (OrderedMap.first_eq_some.mp found).2.1
    have unmatched : regexMatch f.pattern key = false := by
      by_contra matches_f
      exact other (regexMatch_unique (Bool.not_eq_false _ ▸ matches_f) matches_g)
    simp only [getJson, found]
    rw [OrderedMap.first_erase unmatched]
    split <;> rfl

section Reading

variable (outside : Value → Int) (floatText : Rat → Bytes)

def numberOf {T : Type} (ofInt : Int → T) (ofLongDouble : Value → T) (defaultValue : T) :
    Json → Except Exn T
  | .integer i => .ok (ofInt (wrapInt i))
  | .float x => .ok (ofInt (castInt outside (.finite x.value)))
  | .string s => (stold s).map ofLongDouble
  | _ => .ok defaultValue

def textOf : Json → Bytes
  | .null => []
  | .string s => s
  | j => j.dump floatText

def intOf : Json → Except Exn Int := numberOf outside id (castInt outside) (-1)

def durationOf : Json → Except Exn Value :=
  numberOf outside (fun i => .finite i) castDouble (.finite (-1))

/-- What the leaf of a field makes of the result so far. -/
def read (f : MetadataField) (j : Json) : Except Exn (ProbedMetadata → ProbedMetadata) :=
  match f with
  | title => .ok fun res => { res with title := textOf floatText j }
  | album => .ok fun res => { res with album := textOf floatText j }
  | artist => .ok fun res => { res with artist := textOf floatText j }
  | date => .ok fun res => { res with date := textOf floatText j }
  | format => .ok fun res => { res with format := textOf floatText j }
  | trackNumber => (intOf outside j).map fun n res => { res with trackNumber := n }
  | trackTotal => (intOf outside j).map fun n res => { res with trackTotal := n }
  | discNumber => (intOf outside j).map fun n res => { res with discNumber := n }
  | discTotal => (intOf outside j).map fun n res => { res with discTotal := n }
  | duration => (durationOf outside j).map fun x res => { res with duration := x }

theorem getNumber_eq {T : Type} (ofInt : Int → T) (ofLongDouble : Value → T) (pattern : Bytes)
    (data : Leaves) (defaultValue : T) :
    getNumber outside ofInt ofLongDouble pattern data defaultValue =
      (numberOf outside ofInt ofLongDouble defaultValue (getJson pattern data).1).map
        fun n => (n, (getJson pattern data).2) := by
  unfold getNumber numberOf
  obtain ⟨j, rest⟩ := getJson pattern data
  cases j with
  | string s => cases read : stold s <;> simp only [read] <;> rfl
  | null | boolean | integer | float | array | object => rfl

theorem getString_eq (pattern : Bytes) (data : Leaves) :
    getString floatText pattern data =
      (textOf floatText (getJson pattern data).1, (getJson pattern data).2) := by
  unfold getString textOf
  obtain ⟨j, rest⟩ := getJson pattern data
  cases j <;> rfl

theorem extract_eq (f : MetadataField) (res : ProbedMetadata) (data : Leaves) :
    f.extract outside floatText res data =
      (f.read outside floatText (f.leaf data)).map fun put =>
        (put res, (getJson f.pattern data).2) := by
  unfold extract read leaf getInt getDouble intOf durationOf
  simp only [getNumber_eq, getString_eq]
  cases f with
  | title | album | artist | date | format => rfl
  | trackNumber | trackTotal | discNumber | discTotal | duration =>
    dsimp only
    generalize numberOf outside _ _ _ _ = number
    cases number <;> rfl

end Reading

end MetadataField

section Order

variable (outside : Value → Int) (floatText : Rat → Bytes) {data : Leaves}

/-- The extraction without the map: every field is read from its own leaf. -/
def readFields (order : List MetadataField) (leaf : MetadataField → Json) :
    Except Exn ProbedMetadata :=
  order.foldlM (fun res f => (f.read outside floatText (leaf f)).map (· res)) {}

theorem foldlM_extract {order : List MetadataField} (nodup : order.Nodup)
    {leaf : MetadataField → Json} (res : ProbedMetadata) {data : Leaves}
    (same : ∀ f ∈ order, f.leaf data = leaf f) :
    (order.foldlM (fun s (f : MetadataField) => f.extract outside floatText s.1 s.2)
      (res, data)).map Prod.fst =
      order.foldlM (fun res f => (f.read outside floatText (leaf f)).map (· res)) res := by
  induction order generalizing res data with
  | nil => rfl
  | cons f order ih =>
    obtain ⟨later, nodup⟩ := List.nodup_cons.mp nodup
    rw [List.foldlM_cons, List.foldlM_cons, MetadataField.extract_eq, same f List.mem_cons_self]
    cases f.read outside floatText (leaf f) with
    | error exn => rfl
    | ok put =>
      refine ih nodup (put res) fun g member => ?_
      have other : g ≠ f := fun equal => later (equal ▸ member)
      rw [MetadataField.leaf_erased other]
      exact same g (List.mem_cons_of_mem f member)

theorem extractFields_eq {order : List MetadataField} (nodup : order.Nodup) (data : Leaves) :
    extractFields outside floatText order data =
      readFields outside floatText order fun f => f.leaf data :=
  foldlM_extract outside floatText nodup {} fun _ _ => rfl

def ProbedMetadata.view (res : ProbedMetadata) : MetadataField → Bytes ⊕ Int ⊕ Value
  | .title => .inl res.title
  | .album => .inl res.album
  | .artist => .inl res.artist
  | .date => .inl res.date
  | .format => .inl res.format
  | .trackNumber => .inr (.inl res.trackNumber)
  | .trackTotal => .inr (.inl res.trackTotal)
  | .discNumber => .inr (.inl res.discNumber)
  | .discTotal => .inr (.inl res.discTotal)
  | .duration => .inr (.inr res.duration)

theorem view_injective {res res' : ProbedMetadata} (same : res.view = res'.view) : res = res' := by
  have each (f : MetadataField) : res.view f = res'.view f := congrFun same f
  cases res
  cases res'
  simp only [ProbedMetadata.mk.injEq]
  exact ⟨Sum.inl.inj (each .title), Sum.inl.inj (each .album), Sum.inl.inj (each .artist),
    Sum.inl.inj (each .date), Sum.inl.inj (each .format),
    Sum.inl.inj (Sum.inr.inj (each .trackNumber)), Sum.inl.inj (Sum.inr.inj (each .trackTotal)),
    Sum.inl.inj (Sum.inr.inj (each .discNumber)), Sum.inl.inj (Sum.inr.inj (each .discTotal)),
    Sum.inr.inj (Sum.inr.inj (each .duration))⟩

theorem read_view {f : MetadataField} {j : Json} {put : ProbedMetadata → ProbedMetadata}
    (reads : f.read outside floatText j = .ok put) :
    ∃ v, ∀ res, (put res).view = Function.update res.view f v := by
  unfold MetadataField.read at reads
  cases f with
  | title | album | artist | date | format =>
    cases reads
    exact ⟨.inl (MetadataField.textOf floatText j), fun res => funext fun g => by cases g <;> rfl⟩
  | trackNumber | trackTotal | discNumber | discTotal =>
    obtain ⟨n, -, rfl⟩ := map_eq_ok.mp reads
    exact ⟨.inr (.inl n), fun res => funext fun g => by cases g <;> rfl⟩
  | duration =>
    obtain ⟨x, -, rfl⟩ := map_eq_ok.mp reads
    exact ⟨.inr (.inr x), fun res => funext fun g => by cases g <;> rfl⟩

theorem read_comm {f g : MetadataField} {j k : Json} {put put' : ProbedMetadata → ProbedMetadata}
    (other : f ≠ g) (reads_f : f.read outside floatText j = .ok put)
    (reads_g : g.read outside floatText k = .ok put') (res : ProbedMetadata) :
    put' (put res) = put (put' res) := by
  obtain ⟨v, put_view⟩ := read_view outside floatText reads_f
  obtain ⟨w, put'_view⟩ := read_view outside floatText reads_g
  apply view_injective
  rw [put'_view, put_view, put_view, put'_view, Function.update_comm other]

theorem readFields_cons {f : MetadataField} {order : List MetadataField}
    {leaf : MetadataField → Json} {start res : ProbedMetadata} :
    (f :: order).foldlM (fun res f => (f.read outside floatText (leaf f)).map (· res)) start = .ok res ↔
      ∃ put, f.read outside floatText (leaf f) = .ok put ∧
        order.foldlM (fun res f => (f.read outside floatText (leaf f)).map (· res)) (put start) =
          .ok res := by
  rw [List.foldlM_cons]
  cases f.read outside floatText (leaf f) with
  | error exn =>
    constructor
    · intro reads
      cases reads
    · rintro ⟨put, read, -⟩
      cases read
  | ok put =>
    constructor
    · exact fun reads => ⟨put, rfl, reads⟩
    · rintro ⟨_, ⟨⟩, reads⟩
      exact reads

/-- A result that is reached in one order is reached in every other one. -/
theorem readFields_perm {order order' : List MetadataField} (perm : order.Perm order')
    (leaf : MetadataField → Json) {res : ProbedMetadata}
    (reads : readFields outside floatText order leaf = .ok res) :
    readFields outside floatText order' leaf = .ok res := by
  unfold readFields at *
  generalize ({} : ProbedMetadata) = start at reads ⊢
  induction perm generalizing start with
  | nil => exact reads
  | cons f _ ih =>
    rw [readFields_cons] at reads ⊢
    obtain ⟨put, read, later⟩ := reads
    exact ⟨put, read, ih _ later⟩
  | swap f g order =>
    rw [readFields_cons] at reads ⊢
    obtain ⟨put, read_g, reads⟩ := reads
    rw [readFields_cons] at reads
    obtain ⟨put', read_f, later⟩ := reads
    refine ⟨put', read_f, (readFields_cons outside floatText).mpr ⟨put, read_g, ?_⟩⟩
    by_cases same : f = g
    · subst same
      cases read_f.symm.trans read_g
      exact later
    · rwa [read_comm outside floatText same read_f read_g]
  | trans _ _ ih ih' => exact ih' _ (ih _ reads)

theorem readFields_all {leaf : MetadataField → Json} {res : ProbedMetadata} :
    readFields outside floatText MetadataField.all leaf = .ok res ↔
      (res.title = MetadataField.textOf floatText (leaf .title) ∧
        res.album = MetadataField.textOf floatText (leaf .album) ∧
        res.artist = MetadataField.textOf floatText (leaf .artist) ∧
        res.date = MetadataField.textOf floatText (leaf .date) ∧
        res.format = MetadataField.textOf floatText (leaf .format)) ∧
      MetadataField.intOf outside (leaf .trackNumber) = .ok res.trackNumber ∧
      MetadataField.intOf outside (leaf .trackTotal) = .ok res.trackTotal ∧
      MetadataField.intOf outside (leaf .discNumber) = .ok res.discNumber ∧
      MetadataField.intOf outside (leaf .discTotal) = .ok res.discTotal ∧
      MetadataField.durationOf outside (leaf .duration) = .ok res.duration := by
  simp only [readFields, MetadataField.all, readFields_cons, List.foldlM_nil]
  simp only [MetadataField.read, map_eq_ok, Except.ok.injEq, exists_eq_left']
  constructor
  · rintro ⟨_, ⟨_, track, rfl⟩, _, ⟨_, total, rfl⟩, _, ⟨_, disc, rfl⟩, _, ⟨_, discs, rfl⟩,
      _, ⟨_, duration, rfl⟩, ⟨⟩⟩
    exact ⟨⟨rfl, rfl, rfl, rfl, rfl⟩, track, total, disc, discs, duration⟩
  · obtain ⟨⟩ := res
    rintro ⟨⟨rfl, rfl, rfl, rfl, rfl⟩, track, total, disc, discs, duration⟩
    exact ⟨_, ⟨_, track, rfl⟩, _, ⟨_, total, rfl⟩, _, ⟨_, disc, rfl⟩, _, ⟨_, discs, rfl⟩,
      _, ⟨_, duration, rfl⟩, rfl⟩

theorem document_eq {doc : Json} {data : Leaves} (flat : flaten doc = .ok data) :
    metadataFromDocument outside floatText doc =
      readFields outside floatText MetadataField.all fun f => f.leaf data := by
  have nodup : MetadataField.all.Nodup := by decide
  simp only [metadataFromDocument, flat, Except.bind]
  exact extractFields_eq outside floatText nodup data

end Order

end HttpAudioServer
