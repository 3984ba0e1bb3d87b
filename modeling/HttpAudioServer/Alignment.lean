import HttpAudioServer.Playlist

/-! Where reads begin. A read is a whole number of samples unless the file ends in it, as
long as no request is cut to a size that is not: its size is what the files before have
left over, and a file may end within a sample. -/
namespace HttpAudioServer

variable {c : Codec}

theorem floatsOf_append {xs : Bytes} (whole : 4 ∣ xs.length) (ys : Bytes) :
    floatsOf (xs ++ ys) = floatsOf xs ++ floatsOf ys := by
  have nothing : Blocks.rest 4 xs = [] := by
    rw [← List.length_eq_zero_iff, Blocks.length_rest]
    omega
  rw [floatsOf, Blocks.blocks_append (by decide), nothing, List.nil_append, List.map_append]
  rfl

theorem wholeFloats_of_whole {xs : Bytes} (whole : 8 ∣ xs.length) : wholeFloats xs = floatsOf xs := by
  rw [wholeFloats, List.take_of_length_le]
  rw [length_floatsOf]
  omega

theorem wholeFloats_append {xs : Bytes} (whole : 8 ∣ xs.length) (ys : Bytes) :
    wholeFloats (xs ++ ys) = wholeFloats xs ++ wholeFloats ys := by
  have first : (floatsOf xs).length = xs.length / 8 * 2 := by
    rw [← wholeFloats_of_whole whole, length_wholeFloats]
  have total : (xs ++ ys).length / 4 / 2 * 2 = xs.length / 8 * 2 + ys.length / 4 / 2 * 2 := by
    rw [List.length_append]
    omega
  rw [wholeFloats_of_whole whole, wholeFloats, floatsOf_append (by omega), total, ← first,
    List.take_length_add_append]
  rfl

/-- A request that ends within what is left of a file takes whole samples of that file. The
lengths are of what is left of each file on the playlist. -/
def CutsWhole : Nat → List Nat → Prop
  | _, [] => True
  | n, length :: later =>
    if length < n then CutsWhole (n - length) later else length = n ∨ 8 ∣ n

instance decideCutsWhole : (n : Nat) → (lengths : List Nat) → Decidable (CutsWhole n lengths)
  | _, [] => isTrue trivial
  | n, length :: later =>
    have := decideCutsWhole (n - length) later
    if short : length < n then
      decidable_of_iff (CutsWhole (n - length) later) (by simp [CutsWhole, short])
    else decidable_of_iff (length = n ∨ 8 ∣ n) (by simp [CutsWhole, short])

theorem cutsWhole_exhausted {n : Nat} (wanted : 0 < n) (later : List Nat) :
    CutsWhole n (0 :: later) ↔ CutsWhole n later := by
  simp [CutsWhole, wanted]

theorem cutsWhole_read {n length : Nat} {later : List Nat} (cuts : CutsWhole n (length :: later)) :
    (length ≤ n ∨ 8 ∣ n) ∧ CutsWhole (n - min n length) ((length - n) :: later) := by
  unfold CutsWhole at cuts
  split at cuts
  · rename_i short
    refine ⟨.inl (Nat.le_of_lt short), ?_⟩
    rwa [Nat.min_eq_right (Nat.le_of_lt short), Nat.sub_eq_zero_of_le (Nat.le_of_lt short),
      cutsWhole_exhausted (by omega)]
  · rename_i long
    refine ⟨?_, ?_⟩
    · rcases cuts with fits | whole
      · exact .inl (Nat.le_of_eq fits)
      · exact .inr whole
    · rw [Nat.min_eq_left (Nat.not_lt.mp long), Nat.sub_self]
      simp [CutsWhole]

namespace Entry

/-- Every block read from this entry begins at a whole sample, and so will the next one; the
blocks together hold the whole samples of what has been read. -/
structure Steady (pcm : Bytes → Rat → Bytes) (e : Entry) : Prop where
  aligned : ∀ r ∈ e.reads, r.got ≠ [] → 8 ∣ r.offset
  next : e.unread pcm ≠ [] → 8 ∣ e.delivered.length
  samples : e.fed = wholeFloats e.delivered

theorem steady_of_silent {pcm : Bytes → Rat → Bytes} {e : Entry} (silent : e.reads = []) :
    e.Steady pcm where
  aligned := by simp [silent]
  next _ := by simp [delivered_silent e silent]
  samples := by rw [delivered_silent e silent, fed_silent e silent]; rfl

theorem steady_read {pcm : Bytes → Rat → Bytes} {e : Entry} {d next : Decoder} {n : Nat} {got : Bytes}
    (steady : e.Steady pcm) (dec : e.dec = some d)
    (log : next.log = d.log ++ [⟨d.delivered.length, n, got⟩])
    (got_eq : got = (e.unread pcm).take n)
    (unread : { e with dec := some next }.unread pcm = (e.unread pcm).drop n)
    (cut : (e.unread pcm).length ≤ n ∨ 8 ∣ n) :
    { e with dec := some next }.Steady pcm := by
  have position : d.delivered = e.delivered := by
    rw [delivered, reads_of_some dec, Decoder.delivered]
  by_cases ended : e.unread pcm = []
  · have nothing : got = [] := by rw [got_eq, ended, List.take_nil]
    subst nothing
    refine ⟨?_, ?_, ?_⟩
    · intro r read some_read
      rw [reads_read dec log, List.mem_append, List.mem_singleton] at read
      rcases read with old | rfl
      · exact steady.aligned r old some_read
      · exact absurd rfl some_read
    · intro more
      rw [unread, ended, List.drop_nil] at more
      exact absurd rfl more
    · rw [fed_read dec log, delivered_read dec log, steady.samples, List.append_nil]
      exact List.append_nil _
  · have whole := steady.next ended
    refine ⟨?_, ?_, ?_⟩
    · intro r read some_read
      rw [reads_read dec log, List.mem_append, List.mem_singleton] at read
      rcases read with old | rfl
      · exact steady.aligned r old some_read
      · exact position ▸ whole
    · intro more
      rw [unread] at more
      have long : n < (e.unread pcm).length := by
        by_contra short
        exact more (List.drop_eq_nil_of_le (Nat.not_lt.mp short))
      have size : 8 ∣ n := by
        rcases cut with short | size
        · omega
        · exact size
      rw [delivered_read dec log, List.length_append, got_eq, List.length_take,
        Nat.min_eq_left (Nat.le_of_lt long)]
      exact Nat.dvd_add whole size
    · rw [fed_read dec log, delivered_read dec log, steady.samples, wholeFloats_append whole]

end Entry

namespace Stream

def leftovers (pcm : Bytes → Rat → Bytes) (s : Stream c) : List Nat := (s.unreads pcm).map List.length

def AllSteady (pcm : Bytes → Rat → Bytes) (s : Stream c) : Prop := ∀ e ∈ s.entries, e.Steady pcm

section Call

variable {pcm : Bytes → Rat → Bytes} {media : Media} {l l' : Advance c}

theorem steady_front {s : Stream c} {e : Entry} {later : List Entry} (front : s.decoders = e :: later)
    (removed : ∀ x ∈ s.removed, x.Steady pcm) (steady : e.Steady pcm)
    (untouched : ∀ x ∈ later, x.dec = none) : s.AllSteady pcm := by
  intro x member
  rw [entries, front] at member
  rcases List.mem_append.mp member with old | new
  · exact removed x old
  · rcases List.mem_cons.mp new with rfl | still
    · exact steady
    · exact Entry.steady_of_silent (Entry.reads_of_none (untouched x still))

theorem Act.steady (yields : media.Yields pcm) (inv : l.stream.Inv pcm)
    (steady : l.stream.AllSteady pcm) (cuts : CutsWhole l.nBytes (l.stream.leftovers pcm))
    (act : Act media l l') :
    l'.stream.AllSteady pcm ∧ CutsWhole l'.nBytes (l'.stream.leftovers pcm) := by
  have removed : ∀ x ∈ l.stream.removed, x.Steady pcm :=
    fun x member => steady x (List.mem_append_left _ member)
  cases act with
  | @opens e later output metadata front fresh decoder probe =>
    constructor
    · exact steady_front rfl removed (Entry.steady_of_silent rfl) (inv.behind front)
    · have unreads := unreads_opens yields front fresh decoder
        (some ⟨(l.stream.nSamples : Rat) / 48000, e.filename, metadata⟩)
      unfold leftovers at cuts ⊢
      rw [← unreads] at cuts
      exact cuts
  | @reads e later d next got encoder out wanted front dec taken left log fed =>
    obtain ⟨got_eq, unreads⟩ := unreads_reads inv front dec taken left log encoder out
    have unread := (Entry.tracks_read (inv.front_tracks front) dec taken left log).2.1
    have steady_e : e.Steady pcm := steady e (by simp [entries, front])
    rw [leftovers, unreads_front front, List.map_cons] at cuts
    obtain ⟨cut, rest⟩ := cutsWhole_read cuts
    constructor
    · exact steady_front rfl removed
        (Entry.steady_read steady_e dec log got_eq unread cut) (inv.behind front)
    · rw [leftovers, unreads, List.map_cons, List.length_drop]
      rw [← List.length_take, ← got_eq] at rest
      exact rest
  | @pops e later d wanted front dec ended =>
    constructor
    · intro x member
      rw [entries_pops front] at member
      exact steady x member
    · rw [leftovers, unreads_front front, Entry.unread_of_some dec ended] at cuts
      exact (cutsWhole_exhausted wanted _).mp cuts

theorem Acts.steady (yields : media.Yields pcm) (inv : l.stream.Inv pcm)
    (steady : l.stream.AllSteady pcm) (cuts : CutsWhole l.nBytes (l.stream.leftovers pcm))
    (acts : Acts media l l') :
    l'.stream.AllSteady pcm ∧ CutsWhole l'.nBytes (l'.stream.leftovers pcm) := by
  induction acts with
  | refl => exact ⟨steady, cuts⟩
  | tail before act ih => exact act.steady yields (inv.acts yields before) ih.1 ih.2

end Call

def Op.CutsWhole (pcm : Bytes → Rat → Bytes) (s : Stream c) : Op → Prop
  | .append _ _ => True
  | .advance _ samples => HttpAudioServer.CutsWhole (8 * samples) (s.leftovers pcm)

theorem AllSteady.acts {pcm : Bytes → Rat → Bytes} {media : Media} {samples : Nat} {s : Stream c}
    {l : Advance c} (yields : media.Yields pcm) (inv : s.Inv pcm) (steady : s.AllSteady pcm)
    (cuts : Op.CutsWhole pcm s (.advance media samples)) (acts : Acts media (.start samples s) l) :
    l.stream.AllSteady pcm := by
  have request : samples * 2 * 4 = 8 * samples := by omega
  have start : HttpAudioServer.CutsWhole (samples * 2 * 4) (s.leftovers pcm) := by
    rw [request]
    exact cuts
  exact (Acts.steady yields inv steady start acts).1

theorem AllSteady.steps {pcm : Bytes → Rat → Bytes} {s t : Stream c} {op : Op} {reply : Reply}
    (yields : op.Yields pcm) (inv : s.Inv pcm) (steady : s.AllSteady pcm)
    (cuts : op.CutsWhole pcm s) (steps : Steps s op t reply) : t.AllSteady pcm := by
  cases steps with
  | appends filename offs =>
    intro e member
    rw [entries_append, List.mem_append, List.mem_singleton] at member
    rcases member with old | rfl
    · exact steady e old
    · exact Entry.steady_of_silent rfl
  | returns _ acts _ finishes =>
    have during := steady.acts yields inv cuts acts
    cases finishes <;> exact during
  | throws _ acts fails =>
    have during := steady.acts yields inv cuts acts
    cases fails with
    | decoder => exact during
    | metadata front fresh decoder failed =>
      exact steady_front rfl (fun x member => during x (List.mem_append_left _ member))
        (Entry.steady_of_silent rfl) ((Inv.acts yields inv acts).behind front)

theorem AllSteady.reads_aligned {pcm : Bytes → Rat → Bytes} {s : Stream c} (steady : s.AllSteady pcm)
    (inv : s.Inv pcm) :
    (∀ e ∈ s.entries, ∀ r ∈ e.reads, r.got ≠ [] → 8 ∣ r.offset) ∧
    (∀ e ∈ s.removed, e.fed = wholeFloats (e.output pcm)) := by
  constructor
  · exact fun e member => (steady e member).aligned
  · intro e member
    rw [(steady e (List.mem_append_left _ member)).samples, inv.removed_delivered member]

theorem fed_whole {pcm : Bytes → Rat → Bytes} {s : Stream c} (inv : s.Inv pcm)
    (steady : s.AllSteady pcm) (drained : s.decoders = []) :
    s.fed = s.files.flatMap fun file => wholeFloats (pcm file.1 file.2) := by
  have entries : s.entries = s.removed := by rw [Stream.entries, drained, List.append_nil]
  rw [Stream.fed, Stream.files, List.flatMap_map]
  apply List.flatMap_congr
  intro e inside
  exact (AllSteady.reads_aligned steady inv).2 e (entries ▸ inside)

/-- In a run whose requests are never cut within a sample, every block that is fed to the
encoder begins at a whole sample of its file, every file that has been played contributes
its whole samples, and the encoder is given just these. -/
theorem blocks_aligned (pcm : Bytes → Rat → Bytes) (bitrate : Nat) (ops : List Op)
    (yields : ∀ op ∈ ops, op.Yields pcm)
    (cuts : Run.Along step (fun s op => op.CutsWhole pcm s) (create c bitrate) ops) :
    ∃ t replies, run (create c bitrate) ops = some (t, replies) ∧
      (∀ e ∈ t.entries, ∀ r ∈ e.reads, r.got ≠ [] → 8 ∣ r.offset) ∧
      (∀ e ∈ t.removed, e.fed = wholeFloats (e.output pcm)) ∧
      (t.encoder.done = false → t.encoder.view =
        (EncoderImpl.create c 48000 2).view.feed t.bitrate (t.entries.flatMap Entry.fed)) := by
  obtain ⟨t, replies, reached, inv, steady⟩ := run_keeps pcm bitrate (fun _ _ => AllSteady pcm)
    (fun s op => op.CutsWhole pcm s) (by simp [AllSteady, create, entries])
    (fun _ _ _ _ _ _ _ inv steady yields cuts steps => steady.steps yields inv cuts steps)
    ops yields cuts
  obtain ⟨aligned, samples⟩ := AllSteady.reads_aligned steady inv
  exact ⟨t, replies, reached, aligned, samples, inv.encoder⟩

def truncated (filename : Bytes) (_ : Rat) : Bytes :=
  if filename = str "a" then List.replicate 4 0 else List.replicate 16 0

def playBoth (calls : Nat) : List Op :=
  [.append (str "a") 0, .append (str "b") 0] ++ List.replicate calls (.advance (.ofFiles truncated) 1)

/-- After `a`, the first request leaves four bytes for `b`. From then on the blocks of `b`
begin within a sample, and it contributes one sample of its two. -/
theorem truncated_file_shifts_next :
    (run (create Codec.plain 196000) (playBoth 3)).map (fun r =>
        (r.1.removed.map fun e => e.reads.map fun read => (read.offset, read.got.length))) =
      some [[(0, 4), (4, 0)], [(0, 4), (4, 8), (12, 4), (16, 0)]] ∧
    (run (create Codec.plain 196000) (playBoth 3)).map (fun r => r.1.removed.map fun e =>
        (e.fed.length, (wholeFloats (e.output truncated)).length)) =
      some [(0, 0), (2, 4)] := by
  decide +kernel

theorem blocks_aligned_one_request :
    ∃ t replies, run (create Codec.plain 196000)
        [.append (str "a") 0, .append (str "b") 0, .advance (.ofFiles truncated) 3] =
          some (t, replies) ∧
      (∀ e ∈ t.entries, ∀ r ∈ e.reads, r.got ≠ [] → 8 ∣ r.offset) ∧
      (∀ e ∈ t.removed, e.fed = wholeFloats (e.output truncated)) := by
  have cuts : Run.Along step (fun s op => op.CutsWhole truncated s) (create Codec.plain 196000)
      ([] ++ [.append (str "a") 0] ++ [.append (str "b") 0] ++
        [.advance (.ofFiles truncated) 3]) := by
    refine (((Run.along_nil _).concat ?_).concat ?_).concat ?_
    · exact fun _ _ _ => trivial
    · exact fun _ _ _ => trivial
    · intro s replies reached
      cases reached
      have cut : CutsWhole 24 [4, 16] := by decide
      exact cut
  obtain ⟨t, replies, reached, aligned, samples, _⟩ := blocks_aligned truncated 196000 _
    (by simp [Op.Yields, media_yields]) cuts
  exact ⟨t, replies, reached, aligned, samples⟩

end Stream

end HttpAudioServer
