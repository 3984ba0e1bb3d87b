import HttpAudioServer.Library.OrderedMap
import HttpAudioServer.Library.Run
import HttpAudioServer.Stream
import Mathlib.Algebra.BigOperators.Group.List.Lemmas
import Mathlib.Algebra.Order.Ring.Int

/-! The logger: how many messages it counts, and which of them each backend receives. A severity
is any `int32_t`, and the enumeration names five of them. -/
namespace HttpAudioServer

structure LogMessage where
  lvl : Int
  time : Int
  moduleName : Bytes
  message : Bytes
deriving DecidableEq

/-- An entry of `m_backends`, with what has been passed to the backend through it. -/
structure LoggerBackend (β : Type) where
  backend : β
  minLevel : Int
  received : List LogMessage

structure Logger (β : Type) where
  backends : List (LoggerBackend β)
  counts : OrderedMap Int Nat

namespace Logger

variable {β : Type}

def empty : Logger β := ⟨[], .empty⟩

def outOfRange : Exn := ⟨"Given index out of range"⟩

def backendCount (l : Logger β) : Nat := l.backends.length

def backendIdx (idx : Int) (l : Logger β) : Except Exn (Fin l.backends.length) :=
  let idx := if idx < 0 then (l.backends.length : Int) + idx else idx
  if outside : idx < 0 ∨ l.backends.length ≤ idx.toNat then .error outOfRange
  else .ok ⟨idx.toNat, by omega⟩

/-- The index of the new backend, and the logger with it. -/
def addBackend (backend : β) (lvl : Int) (l : Logger β) : Int × Logger β :=
  let l := { l with backends := l.backends ++ [⟨backend, lvl, []⟩] }
  ((l.backends.length : Int) - 1, l)

def setMinLevel (lvl idx : Int) (l : Logger β) : Except Exn Unit × Logger β :=
  match l.backendIdx idx with
  | .error exn => (.error exn, l)
  | .ok i => (.ok (), { l with backends := l.backends.modify i fun e => { e with minLevel := lvl } })

def minLevel (idx : Int) (l : Logger β) : Except Exn Int :=
  (l.backendIdx idx).map fun i => (l.backends.get i).minLevel

def tally (lvl : Int) (counts : OrderedMap Int Nat) : OrderedMap Int Nat :=
  match counts.find lvl with
  | some _ => counts.adjust lvl (· + 1)
  | none => counts.emplace lvl 1

def log (message : LogMessage) (l : Logger β) : Logger β where
  counts := tally message.lvl l.counts
  backends := l.backends.map fun e =>
    if e.minLevel ≤ message.lvl then { e with received := e.received ++ [message] } else e

def count (lvl : Int) (l : Logger β) : Nat :=
  ((l.counts.lowerBound lvl).map Prod.snd).sum

inductive Call (β : Type) where
  | addBackend (backend : β) (lvl : Int)
  | setMinLevel (lvl idx : Int)
  | minLevel (idx : Int)
  | log (message : LogMessage)

/-- What a call returns, if it returns a number, or throws, and the logger it leaves. -/
def call : Call β → Logger β → Except Exn (Option Int) × Logger β
  | .addBackend backend lvl, l =>
    (.ok (some (l.addBackend backend lvl).1), (l.addBackend backend lvl).2)
  | .setMinLevel lvl idx, l =>
    ((l.setMinLevel lvl idx).1.map fun _ => none, (l.setMinLevel lvl idx).2)
  | .minLevel idx, l => ((l.minLevel idx).map some, l)
  | .log message, l => (.ok none, l.log message)

def after (calls : List (Call β)) : Logger β := calls.foldl (fun l c => (l.call c).2) empty

theorem after_concat (calls : List (Call β)) (c : Call β) :
    after (calls ++ [c]) = ((after calls).call c).2 := by
  rw [after, List.foldl_append]
  rfl

section History

def Call.attaches : Call β → Option β
  | .addBackend backend _ => some backend
  | _ => none

def Call.logs : Call β → Option LogMessage
  | .log message => some message
  | _ => none

def added (calls : List (Call β)) : List β := calls.filterMap Call.attaches

def logged (calls : List (Call β)) : List LogMessage := calls.filterMap Call.logs

/-- The index `idx` stands for the backend `i` of `count`, counted from the front or from the
back. -/
def Denotes (idx : Int) (count i : Nat) : Prop := i < count ∧ (idx = i ∨ idx = (i : Int) - count)

instance (idx : Int) (count i : Nat) : Decidable (Denotes idx count i) :=
  inferInstanceAs (Decidable (_ ∧ _))

def levelSet (i : Nat) (before : List (Call β)) : Call β → Option Int
  | .addBackend _ lvl => if (added before).length = i then some lvl else none
  | .setMinLevel lvl idx => if Denotes idx (added before).length i then some lvl else none
  | _ => none

def levelAfter (i : Nat) (calls : List (Call β)) : Option Int :=
  (Run.moments (levelSet i) calls).getLast?

/-- A message for the backend `i`, from its level when the message is logged. -/
def heard (i : Nat) (before : List (Call β)) : Call β → Option LogMessage
  | .log message => if ∃ lvl ∈ levelAfter i before, lvl ≤ message.lvl then some message else none
  | _ => none

theorem added_concat (calls : List (Call β)) (c : Call β) :
    added (calls ++ [c]) = added calls ++ c.attaches.toList := by
  rw [added, List.filterMap_append, List.filterMap_cons]
  cases c.attaches <;> rfl

theorem logged_concat (calls : List (Call β)) (c : Call β) :
    logged (calls ++ [c]) = logged calls ++ c.logs.toList := by
  rw [logged, List.filterMap_append, List.filterMap_cons]
  cases c.logs <;> rfl

section Silent

variable {calls : List (Call β)} {c : Call β}

theorem added_same (silent : c.attaches = none) : added (calls ++ [c]) = added calls := by
  rw [added_concat, silent, Option.toList_none, List.append_nil]

theorem logged_same (silent : c.logs = none) : logged (calls ++ [c]) = logged calls := by
  rw [logged_concat, silent, Option.toList_none, List.append_nil]

theorem heard_same (i : Nat) (silent : c.logs = none) :
    Run.moments (heard i) (calls ++ [c]) = Run.moments (heard i) calls := by
  have nothing : heard i calls c = none := by
    cases c with
    | log message => cases silent
    | addBackend | setMinLevel | minLevel => rfl
  rw [Run.moments_concat, nothing, Option.toList_none, List.append_nil]

end Silent

theorem levelAfter_concat (i : Nat) (calls : List (Call β)) (c : Call β) :
    levelAfter i (calls ++ [c]) = (levelSet i calls c).or (levelAfter i calls) := by
  rw [levelAfter, Run.moments_concat, List.getLast?_append]
  cases levelSet i calls c <;> rfl

end History

theorem denotes_unique {idx : Int} {count i j : Nat} (left : Denotes idx count i)
    (right : Denotes idx count j) : i = j := by
  unfold Denotes at left right
  omega

theorem backendIdx_ok {idx : Int} {l : Logger β} {i : Fin l.backends.length} :
    l.backendIdx idx = .ok i ↔ Denotes idx l.backendCount i := by
  have bound := i.isLt
  unfold backendIdx Denotes backendCount
  by_cases back : idx < 0
  · simp only [if_pos back]
    split
    case isTrue outside =>
      simp only [reduceCtorEq, false_iff]
      omega
    case isFalse inside =>
      simp only [Except.ok.injEq, Fin.ext_iff]
      omega
  · simp only [if_neg back]
    split
    case isTrue outside =>
      simp only [reduceCtorEq, false_iff]
      omega
    case isFalse inside =>
      simp only [Except.ok.injEq, Fin.ext_iff]
      omega

theorem backendIdx_error {idx : Int} {l : Logger β} (outside : ∀ i, ¬ Denotes idx l.backendCount i) :
    l.backendIdx idx = .error outOfRange := by
  cases found : l.backendIdx idx with
  | ok i => exact absurd (backendIdx_ok.mp found) (outside i)
  | error exn =>
    unfold backendIdx at found
    grind

theorem setMinLevel_backends (lvl idx : Int) (l : Logger β) (i : Nat) :
    (l.setMinLevel lvl idx).2.backends[i]? = l.backends[i]?.map fun e =>
      if Denotes idx l.backendCount i then { e with minLevel := lvl } else e := by
  unfold setMinLevel
  cases found : l.backendIdx idx with
  | error exn =>
    simp only
    cases there : l.backends[i]? with
    | none => rfl
    | some e =>
      obtain ⟨bound, -⟩ := List.getElem?_eq_some_iff.mp there
      have other : ¬ Denotes idx l.backendCount i := by
        intro denoted
        have ok := backendIdx_ok (i := ⟨i, bound⟩) |>.mpr denoted
        rw [found] at ok
        contradiction
      rw [Option.map_some, if_neg other]
  | ok j =>
    have denoted := backendIdx_ok.mp found
    simp only [List.getElem?_modify]
    by_cases same : j.val = i
    · subst same
      simp [denoted]
    · have other : ¬ Denotes idx l.backendCount i := fun also => same (denotes_unique denoted also)
      simp [same, other]

theorem setMinLevel_counts (lvl idx : Int) (l : Logger β) :
    (l.setMinLevel lvl idx).2.counts = l.counts := by
  unfold setMinLevel
  split <;> rfl

/-- What the counts say about the severities of the messages so far. -/
def Tallies (severities : List Int) (counts : OrderedMap Int Nat) : Prop :=
  ∀ lvl, counts.find lvl = if lvl ∈ severities then some (severities.count lvl) else none

theorem Tallies.tally {severities : List Int} {counts : OrderedMap Int Nat}
    (tallies : Tallies severities counts) (lvl : Int) :
    Tallies (severities ++ [lvl]) (tally lvl counts) := by
  intro k
  unfold Logger.tally
  rw [tallies lvl]
  by_cases known : lvl ∈ severities
  · simp only [if_pos known, OrderedMap.find_adjust, tallies k]
    by_cases same : k = lvl
    · subst same
      simp [known]
    · simp [same, Ne.symm same]
  · simp only [if_neg known, OrderedMap.find_emplace, tallies lvl, tallies k]
    by_cases same : k = lvl
    · subst same
      simp [List.count_eq_zero_of_not_mem known]
    · simp [same, Ne.symm same]

theorem Tallies.count {severities : List Int} {l : Logger β} (tallies : Tallies severities l.counts)
    (lvl : Int) : l.count lvl = severities.countP (lvl ≤ ·) := by
  have keys : (l.counts.entries.map Prod.fst).Perm severities.dedup := by
    refine (List.perm_ext_iff_of_nodup l.counts.nodup_keys severities.nodup_dedup).mpr fun k => ?_
    rw [List.mem_dedup]
    constructor
    · intro member
      obtain ⟨⟨_, n⟩, there, rfl⟩ := List.mem_map.mp member
      have found := OrderedMap.mem_entries_iff.mp there
      rw [tallies] at found
      by_contra absent
      rw [if_neg absent] at found
      contradiction
    · intro member
      have found := (tallies k).trans (if_pos member)
      exact List.mem_map.mpr ⟨_, OrderedMap.mem_entries_iff.mpr found, rfl⟩
  have values : ∀ e ∈ l.counts.entries, e.2 = severities.count e.1 := by
    intro e there
    have found := OrderedMap.mem_entries_iff.mp there
    rw [tallies] at found
    split at found
    · exact (Option.some.inj found).symm
    · contradiction
  calc l.count lvl
      = ((l.counts.entries.filter fun e => ¬ e.1 < lvl).map Prod.snd).sum := by
        rw [Logger.count, OrderedMap.lowerBound_eq]
    _ = ((l.counts.entries.filter fun e => ¬ e.1 < lvl).map fun e => severities.count e.1).sum :=
        congrArg List.sum (List.map_congr_left fun e member =>
          values e (List.mem_filter.mp member).1)
    _ = (((l.counts.entries.map Prod.fst).filter (lvl ≤ ·)).map (severities.count ·)).sum := by
        rw [List.filter_map, List.map_map]
        simp only [Int.not_lt]
        rfl
    _ = ((severities.dedup.filter (lvl ≤ ·)).map (severities.count ·)).sum :=
        ((keys.filter _).map _).sum_eq
    _ = severities.countP (lvl ≤ ·) := List.sum_map_count_dedup_filter_eq_countP _ _

/-- What a history has made of a logger. A backend that is not attached yet has no level, and
hears nothing. -/
structure Reflects (calls : List (Call β)) (l : Logger β) : Prop where
  tallies : Tallies ((logged calls).map LogMessage.lvl) l.counts
  backends : l.backends.map LoggerBackend.backend = added calls
  levels : ∀ i, levelAfter i calls = l.backends[i]?.map LoggerBackend.minLevel
  received : ∀ i, Run.moments (heard i) calls = (l.backends[i]?.map LoggerBackend.received).getD []

theorem reflects_empty : Reflects [] (empty : Logger β) where
  tallies _ := rfl
  backends := rfl
  levels _ := rfl
  received _ := rfl

namespace Reflects

variable {calls : List (Call β)} {l : Logger β}

theorem backendCount (reflects : Reflects calls l) : l.backendCount = (added calls).length := by
  rw [← reflects.backends, List.length_map]
  rfl

theorem addBackend (reflects : Reflects calls l) (backend : β) (lvl : Int) :
    Reflects (calls ++ [.addBackend backend lvl]) (l.addBackend backend lvl).2 := by
  have attached := reflects.backendCount
  unfold Logger.backendCount at attached
  constructor
  · rw [logged_same rfl]
    exact reflects.tallies
  · rw [added_concat, ← reflects.backends]
    simp [Logger.addBackend, Call.attaches]
  · intro i
    rw [levelAfter_concat, reflects.levels, levelSet, ← attached]
    simp only [Logger.addBackend, List.getElem?_append]
    rcases Nat.lt_trichotomy i l.backends.length with less | rfl | more
    · rw [if_neg (Nat.ne_of_gt less), if_pos less, Option.none_or]
    · simp
    · rw [if_neg (Nat.ne_of_lt more), if_neg (Nat.not_lt_of_gt more), Option.none_or,
        List.getElem?_eq_none (Nat.le_of_lt more), List.getElem?_eq_none (by simp; omega)]
  · intro i
    rw [heard_same i rfl, reflects.received]
    simp only [Logger.addBackend, List.getElem?_append]
    rcases Nat.lt_trichotomy i l.backends.length with less | rfl | more
    · rw [if_pos less]
    · simp
    · rw [if_neg (Nat.not_lt_of_gt more), List.getElem?_eq_none (Nat.le_of_lt more),
        List.getElem?_eq_none (by simp; omega)]

theorem setMinLevel (reflects : Reflects calls l) (lvl idx : Int) :
    Reflects (calls ++ [.setMinLevel lvl idx]) (l.setMinLevel lvl idx).2 := by
  have attached := reflects.backendCount
  constructor
  · rw [logged_same rfl, setMinLevel_counts]
    exact reflects.tallies
  · rw [added_same rfl, ← reflects.backends]
    refine List.ext_getElem? fun i => ?_
    simp only [List.getElem?_map, setMinLevel_backends, Option.map_map]
    refine congrArg (Option.map · _) (funext fun e => ?_)
    simp only [Function.comp]
    split <;> rfl
  · intro i
    rw [levelAfter_concat, reflects.levels, levelSet, ← attached, setMinLevel_backends]
    cases there : l.backends[i]? with
    | none =>
      have beyond : ¬ Denotes idx l.backendCount i := fun denoted =>
        Nat.not_lt_of_ge (List.getElem?_eq_none_iff.mp there) denoted.1
      rw [if_neg beyond]
      rfl
    | some e =>
      simp only [Option.map_some]
      split <;> rfl
  · intro i
    rw [heard_same i rfl, reflects.received, setMinLevel_backends, Option.map_map]
    refine congrArg (fun f => (Option.map f _).getD []) (funext fun e => ?_)
    simp only [Function.comp]
    split <;> rfl

theorem log (reflects : Reflects calls l) (message : LogMessage) :
    Reflects (calls ++ [.log message]) (l.log message) := by
  constructor
  · rw [logged_concat, List.map_append]
    exact reflects.tallies.tally message.lvl
  · rw [added_same rfl, ← reflects.backends]
    simp only [Logger.log, List.map_map]
    refine List.map_congr_left fun e _ => ?_
    simp only [Function.comp]
    split <;> rfl
  · intro i
    rw [levelAfter_concat, reflects.levels, show levelSet i calls (.log message) = none from rfl,
      Option.none_or]
    simp only [Logger.log, List.getElem?_map, Option.map_map]
    refine congrArg (Option.map · _) (funext fun e => ?_)
    simp only [Function.comp]
    split <;> rfl
  · intro i
    rw [Run.moments_concat, reflects.received, heard, reflects.levels]
    simp only [Logger.log, List.getElem?_map]
    cases l.backends[i]? with
    | none => simp
    | some e =>
      simp only [Option.map_some, Option.mem_some_iff, exists_eq_left', Option.getD_some]
      split <;> simp

theorem call (reflects : Reflects calls l) (c : Call β) : Reflects (calls ++ [c]) (l.call c).2 := by
  cases c with
  | addBackend backend lvl => exact reflects.addBackend backend lvl
  | setMinLevel lvl idx => exact reflects.setMinLevel lvl idx
  | log message => exact reflects.log message
  | minLevel idx =>
    have unset (i : Nat) : levelSet i calls (.minLevel idx) = none := rfl
    refine ⟨?_, ?_, fun i => ?_, fun i => ?_⟩
    · rw [logged_same rfl]
      exact reflects.tallies
    · rw [added_same rfl]
      exact reflects.backends
    · rw [levelAfter_concat, unset, Option.none_or]
      exact reflects.levels i
    · rw [heard_same i rfl]
      exact reflects.received i

end Reflects

theorem after_reflects (calls : List (Call β)) : Reflects calls (after calls) := by
  induction calls using List.reverseRecOn with
  | nil => exact reflects_empty
  | append_singleton calls c ih =>
    rw [after_concat]
    exact ih.call c

theorem added_stays (calls later : List (Call β)) (backend : β) (lvl : Int) :
    (after (calls ++ .addBackend backend lvl :: later)).backends[(after calls).backendCount]?.map
      LoggerBackend.backend = some backend := by
  have split : added (calls ++ .addBackend backend lvl :: later) =
      added calls ++ backend :: added later := by
    rw [added, List.filterMap_append,
      List.filterMap_cons_some (show Call.attaches _ = some backend from rfl)]
    rfl
  rw [← List.getElem?_map, (after_reflects _).backends, (after_reflects calls).backendCount, split,
    List.getElem?_append_right (Nat.le_refl _), Nat.sub_self, List.getElem?_cons_zero]

/-- The account of any sequence of calls: what is counted, what each backend has received, and
which backend an index addresses, from the call that returned it on. -/
theorem logger_accounts (calls : List (Call β)) :
    let l := after calls
    (∀ lvl, l.count lvl = (logged calls).countP (lvl ≤ ·.lvl)) ∧
    l.backends.map LoggerBackend.backend = added calls ∧
    (∀ i e, l.backends[i]? = some e →
      levelAfter i calls = some e.minLevel ∧ e.received = Run.moments (heard i) calls) ∧
    (∀ idx i, l.backendIdx idx = .ok i ↔ Denotes idx l.backendCount i) ∧
    (∀ idx, idx < 0 → 0 ≤ (l.backendCount : Int) + idx →
      l.backendIdx idx = l.backendIdx (l.backendCount + idx)) ∧
    (∀ backend lvl later, ∃ i e,
      (l.call (.addBackend backend lvl)).1 = .ok (some i) ∧
      (∃ k, (after (calls ++ .addBackend backend lvl :: later)).backendIdx i = .ok k ∧
        (after (calls ++ .addBackend backend lvl :: later)).backends.get k = e) ∧
      e.backend = backend ∧ i = l.backendCount) ∧
    ∀ idx, (∀ i, ¬ Denotes idx l.backendCount i) → ∀ lvl,
      l.call (.setMinLevel lvl idx) = (.error outOfRange, l) ∧
      l.call (.minLevel idx) = (.error outOfRange, l) := by
  have reflects := after_reflects calls
  refine ⟨fun lvl => ?_, reflects.backends, fun i e there => ⟨?_, ?_⟩, fun idx i => backendIdx_ok,
    fun idx back inside => ?_, fun backend lvl later => ?_, fun idx outside lvl => ⟨?_, ?_⟩⟩
  · rw [reflects.tallies.count, List.countP_map]
    rfl
  · rw [reflects.levels, there, Option.map_some]
  · rw [reflects.received, there, Option.map_some, Option.getD_some]
  · have position : (((after calls).backendCount + idx).toNat : Int) =
        (after calls).backendCount + idx := Int.toNat_of_nonneg inside
    have bound : ((after calls).backendCount + idx).toNat < (after calls).backendCount := by omega
    have as_back : (after calls).backendIdx idx = .ok ⟨_, bound⟩ :=
      backendIdx_ok.mpr ⟨bound, .inr (by rw [position]; omega)⟩
    have as_front : (after calls).backendIdx ((after calls).backendCount + idx) = .ok ⟨_, bound⟩ :=
      backendIdx_ok.mpr ⟨bound, .inl position.symm⟩
    rw [as_back, as_front]
  · have kept := added_stays calls later backend lvl
    obtain ⟨e, there, same⟩ := Option.map_eq_some_iff.mp kept
    obtain ⟨bound, at_index⟩ := List.getElem?_eq_some_iff.mp there
    refine ⟨(after calls).backendCount, e, ?_, ⟨⟨_, bound⟩, backendIdx_ok.mpr ⟨bound, .inl rfl⟩, ?_⟩,
      same, rfl⟩
    · simp [call, addBackend, backendCount]
    · exact at_index
  · rw [call, setMinLevel, backendIdx_error outside]
    rfl
  · rw [call, minLevel, backendIdx_error outside]
    rfl

end Logger

end HttpAudioServer
