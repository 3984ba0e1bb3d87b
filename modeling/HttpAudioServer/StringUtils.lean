import HttpAudioServer.Main

/-! The random strings: stream ids, with the default length, and a part of the names of log
files, with another. -/
namespace HttpAudioServer

/-- The array with its terminator, so that it has `sizeof(alphanum)` elements. -/
def alphanum : Bytes :=
  str "0123456789" ++ str "ABCDEFGHIJKLMNOPQRSTUVWXYZ" ++ str "abcdefghijklmnopqrstuvwxyz" ++ [0]

/-- The values that `uniform_int_distribution(0, sizeof(alphanum) - 2)` can draw. -/
abbrev Draw := Fin (alphanum.length - 2 + 1)

def Draw.char (draw : Draw) : UInt8 := alphanum.getD draw 0

/-- `res[i] = ch`, unless it stores outside the string. -/
def store (res : Bytes) (i : Nat) (ch : UInt8) : Option Bytes :=
  if i < res.length then some (res.set i ch) else none

/-- The values come from a generator that is seeded at each call: `draws i` is the one drawn for
the position `i`. There is no result where the loop stores outside the string. -/
def randomAlphanumString (len : Int) (draws : Nat → Draw) : Option Bytes :=
  (List.range len.toNat).foldlM (fun res i => store res i (draws i).char) (List.replicate 16 32)

def HonoursLength (len : Int) (draws : Nat → Draw) : Prop :=
  ∃ res, randomAlphanumString len draws = some res ∧ (res.length : Int) = len ∧
    ∀ ch ∈ res, isAlphanum ch = true

theorem isAlphanum_char (draw : Draw) : isAlphanum draw.char = true := by
  revert draw
  decide

variable (draws : Nat → Draw)

def drawn (n : Nat) : Bytes := (List.range n).map fun i => (draws i).char

theorem drawn_length (n : Nat) : (drawn draws n).length = n := by
  rw [drawn, List.length_map, List.length_range]

theorem drawn_succ (n : Nat) : drawn draws (n + 1) = drawn draws n ++ [(draws n).char] := by
  rw [drawn, List.range_succ, List.map_append]
  rfl

theorem isAlphanum_drawn {n : Nat} {ch : UInt8} (member : ch ∈ drawn draws n) :
    isAlphanum ch = true := by
  obtain ⟨i, -, rfl⟩ := List.mem_map.mp member
  exact isAlphanum_char _

theorem fill_inside {n : Nat} (inside : n ≤ 16) :
    randomAlphanumString n draws = some (drawn draws n ++ List.replicate (16 - n) 32) := by
  unfold randomAlphanumString
  rw [Int.toNat_natCast]
  induction n with
  | zero => rfl
  | succ n ih =>
    have blanks : List.replicate (16 - n) (32 : UInt8) = 32 :: List.replicate (16 - (n + 1)) 32 := by
      rw [show 16 - n = 16 - (n + 1) + 1 by omega, List.replicate_succ]
    have room : n < (drawn draws n ++ List.replicate (16 - n) (32 : UInt8)).length := by
      rw [List.length_append, drawn_length, List.length_replicate]
      omega
    rw [List.range_succ, List.foldlM_append, ih (by omega)]
    change (store (drawn draws n ++ _) n (draws n).char).bind some = _
    rw [store, if_pos room, Option.bind_some, List.set_append_right _ _ (drawn_length draws n).le,
      drawn_length, Nat.sub_self, blanks, drawn_succ, List.append_assoc]
    rfl

/-- The seventeenth round stores behind the string, and what follows does not matter. -/
theorem fill_outside {n : Nat} (outside : 16 < n) : randomAlphanumString n draws = none := by
  obtain ⟨k, rfl⟩ : ∃ k, n = 16 + 1 + k := ⟨n - 17, by omega⟩
  have full := fill_inside draws (Nat.le_refl 16)
  unfold randomAlphanumString at *
  rw [Int.toNat_natCast] at *
  rw [Nat.add_assoc, List.range_add, List.foldlM_append, full, Nat.add_comm 1 k,
    List.range_succ_eq_map, List.map_cons, Option.bind_eq_bind, Option.bind_some, List.foldlM_cons,
    store, if_neg (by rw [List.length_append, drawn_length]; simp)]
  rfl

theorem honoursLength_default : HonoursLength 16 draws := by
  refine ⟨_, fill_inside draws (Nat.le_refl 16), by simp [drawn_length], fun ch member => ?_⟩
  rw [Nat.sub_self, List.replicate_zero, List.append_nil] at member
  exact isAlphanum_drawn draws member

theorem HonoursLength.eq_default {draws : Nat → Draw} {len : Nat} (honours : HonoursLength len draws) :
    len = 16 := by
  obtain ⟨res, result, length, -⟩ := honours
  rcases Nat.lt_or_ge 16 len with outside | inside
  · rw [fill_outside draws outside] at result
    contradiction
  · rw [fill_inside draws inside] at result
    cases result
    rw [List.length_append, drawn_length, List.length_replicate] at length
    omega

/-- The length is honoured where it is the one that the string has from the start. -/
theorem honoursLength_iff (len : Nat) (draws : Nat → Draw) : HonoursLength len draws ↔ len = 16 := by
  constructor
  · exact HonoursLength.eq_default
  · rintro rfl
    exact honoursLength_default draws

/-- Four characters, of the name of a log file, are followed by twelve blanks. -/
theorem four_not_honoured : ¬ ∀ (len : Nat) (draws : Nat → Draw), HonoursLength len draws := by
  intro honours
  have equal := (honours 4 fun _ => 0).eq_default
  contradiction

theorem default_isStreamId : ∃ res, randomAlphanumString 16 draws = some res ∧ IsStreamId res := by
  obtain ⟨res, result, length, letters⟩ := honoursLength_default draws
  refine ⟨res, result, fun empty => ?_, letters⟩
  rw [empty] at length
  simp at length

/-- `made` is whether `mkdir` has not failed, or only because the directory exists, and `timeStr`
is what `strftime` writes. -/
def makeLogFilename (made : Bool) (timeStr filePrefix : Bytes) : Except Exn (Option Bytes) :=
  if made then
    .ok ((randomAlphanumString 4 draws).map fun random =>
      str "logs" ++ str "/" ++ filePrefix ++ str "_" ++ timeStr ++ str "_" ++ random ++ str ".log")
  else .error ⟨"Error while creating logging subdirectory!"⟩

theorem makeLogFilename_blanks (timeStr filePrefix : Bytes) :
    makeLogFilename draws true timeStr filePrefix = .ok (some (str "logs" ++ str "/" ++ filePrefix ++
      str "_" ++ timeStr ++ str "_" ++ (drawn draws 4 ++ List.replicate 12 32) ++ str ".log")) := by
  have four := fill_inside draws (show 4 ≤ 16 by omega)
  rw [makeLogFilename, if_pos rfl]
  exact congrArg (fun random => Except.ok (Option.map _ random)) four

end HttpAudioServer
