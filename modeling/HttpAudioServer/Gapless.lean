import HttpAudioServer.Alignment

/-! The frames of a finalised stream: the samples of all its files, one after the other,
whatever the requests and the boundaries between files. -/
namespace HttpAudioServer

variable {c : Codec}

namespace Stream

def Op.Whole (pcm : Bytes → Rat → Bytes) : Op → Prop
  | .append filename offs => 8 ∣ (pcm filename offs).length
  | .advance _ _ => True

def played (pcm : Bytes → Rat → Bytes) (ops : List Op) : Bytes :=
  (appended ops).flatMap fun (filename, offs) => pcm filename offs

/-- The call after `before` is the one that finalises the encoder. -/
def Finalises (c : Codec) (bitrate : Nat) (ops before : List Op) : Prop :=
  ∃ media samples after, ops = before ++ .advance media samples :: after ∧
    (∃ u replies, run (create c bitrate) before = some (u, replies) ∧ u.encoder.done = false) ∧
    ∃ v replies, run (create c bitrate) (before ++ [.advance media samples]) = some (v, replies) ∧
      v.encoder.done = true

section Whole

variable {pcm : Bytes → Rat → Bytes}

def AllWhole (pcm : Bytes → Rat → Bytes) (s : Stream c) : Prop :=
  ∀ file ∈ s.files, 8 ∣ (pcm file.1 file.2).length

theorem AllWhole.steps {s t : Stream c} {op : Op} {reply : Reply} (whole : s.AllWhole pcm)
    (op_whole : op.Whole pcm) (steps : Steps s op t reply) : t.AllWhole pcm := by
  intro file member
  rw [steps.files] at member
  rcases List.mem_append.mp member with old | new
  · exact whole file old
  · cases op with
    | append filename offs =>
      obtain rfl := List.mem_singleton.mp new
      exact op_whole
    | advance media samples => exact absurd new List.not_mem_nil

theorem cutsWhole_of_whole {n : Nat} {lengths : List Nat} (request : 8 ∣ n)
    (whole : ∀ length ∈ lengths, 8 ∣ length) : CutsWhole n lengths := by
  induction lengths generalizing n with
  | nil => exact trivial
  | cons length later ih =>
    unfold CutsWhole
    split
    · have first := whole length List.mem_cons_self
      exact ih (Nat.dvd_sub request first) fun x member => whole x (List.mem_cons_of_mem _ member)
    · exact .inr request

theorem leftovers_whole {s : Stream c} (inv : s.Inv pcm) (steady : s.AllSteady pcm)
    (whole : s.AllWhole pcm) : ∀ length ∈ s.leftovers pcm, 8 ∣ length := by
  intro length member
  simp only [leftovers, unreads, List.map_map, List.mem_map, Function.comp_apply] at member
  obtain ⟨e, inside, rfl⟩ := member
  have entry : e ∈ s.entries := List.mem_append_right _ inside
  have total : 8 ∣ (e.output pcm).length := whole _ (List.mem_map_of_mem entry)
  have parts := congrArg List.length (Entry.delivered_unread (inv.tracks e entry))
  rw [List.length_append] at parts
  by_cases ended : e.unread pcm = []
  · simp [ended]
  · have next := (steady e entry).next ended
    omega

theorem op_cutsWhole {s : Stream c} (inv : s.Inv pcm) (steady : s.AllSteady pcm)
    (whole : s.AllWhole pcm) (op : Op) : op.CutsWhole pcm s := by
  cases op with
  | append => exact trivial
  | advance media samples =>
    exact cutsWhole_of_whole (Nat.dvd_mul_right 8 samples) (leftovers_whole inv steady whole)

theorem floatsOf_flatten {outputs : List Bytes} (whole : ∀ xs ∈ outputs, 8 ∣ xs.length) :
    outputs.flatMap floatsOf = floatsOf outputs.flatten := by
  induction outputs with
  | nil => rfl
  | cons xs outputs ih =>
    have first : 4 ∣ xs.length := Nat.dvd_trans (by decide) (whole xs List.mem_cons_self)
    rw [List.flatMap_cons, List.flatten_cons, floatsOf_append first,
      ih fun ys member => whole ys (List.mem_cons_of_mem _ member)]

theorem fed_drained {s : Stream c} (inv : s.Inv pcm) (steady : s.AllSteady pcm)
    (whole : s.AllWhole pcm) (drained : s.decoders = []) :
    s.fed = floatsOf (s.files.flatMap fun file => pcm file.1 file.2) := by
  have outputs : ∀ xs ∈ s.files.map (fun file => pcm file.1 file.2), 8 ∣ xs.length := by
    intro xs member
    obtain ⟨file, inside, rfl⟩ := List.mem_map.mp member
    exact whole file inside
  have joined := floatsOf_flatten outputs
  rw [List.flatMap_map, ← List.flatMap_def] at joined
  rw [fed_whole inv steady drained, ← joined]
  apply List.flatMap_congr
  exact fun file inside => wholeFloats_of_whole (whole file inside)

theorem Inv.finalised {s : Stream c} (inv : s.Inv pcm) (active : s.encoder.done = false)
    {encoder : EncoderImpl c} {out : Bytes}
    (closed : EncoderImpl.Encoded s.encoder (s.encoder.view.finalize s.bitrate) encoder out) :
    frames encoder.calls = Blocks.framed 3840 0 s.fed ∧ encoder.view.pending = [] ∧
      encoder.taken = s.nSamples := by
  have view := closed.view
  rw [inv.encoder active, Framer.finalize_of_active _ (by rw [Framer.feed_done]; rfl)] at view
  refine ⟨?_, congrArg Framer.pending view, ?_⟩
  · have finalised := closed.view
    rw [inv.encoder active] at finalised
    have sink := congrArg (fun f : Framer c => frames f.sink.calls) finalised
    exact sink.trans (Framer.frames_whole s.bitrate s.bitrate rfl rfl s.fed)
  · have taken := congrArg Framer.taken view
    have samples := inv.samples
    have fed : ((EncoderImpl.create c 48000 2).view.feed s.bitrate s.fed).taken =
        0 + s.fed.length / 2 := rfl
    refine taken.trans (fed.trans ?_)
    omega

theorem closing_frames {s t : Stream c} {op : Op} {reply : Reply} (inv : s.Inv pcm)
    (steady : s.AllSteady pcm) (whole : s.AllWhole pcm) (yields : op.Yields pcm)
    (steps : Steps s op t reply) (active : s.encoder.done = false)
    (closed : t.encoder.done = true) :
    (∃ media samples, op = .advance media samples) ∧
    frames t.encoder.calls =
      Blocks.framed 3840 0 (floatsOf (s.files.flatMap fun file => pcm file.1 file.2)) := by
  have cuts := op_cutsWhole inv steady whole op
  cases steps with
  | appends => exact absurd (active.symm.trans closed) (by decide)
  | throws _ acts fails =>
    have still := acts.done.trans active
    cases fails <;> exact absurd (still.symm.trans closed) (by decide)
  | @returns media samples l l' returned acts stop finishes =>
    have still : l.stream.encoder.done = false := acts.done.trans active
    cases finishes with
    | stays => exact absurd (still.symm.trans closed) (by decide)
    | @closes encoder out drained finalised =>
      have inv' : l.stream.Inv pcm := Inv.acts yields inv acts
      have steady' : l.stream.AllSteady pcm := steady.acts yields inv cuts acts
      have files : l.stream.files = s.files := acts.files
      have whole' : l.stream.AllWhole pcm := by
        rw [AllWhole, files]
        exact whole
      refine ⟨⟨media, samples, rfl⟩, ?_⟩
      rw [← files, ← fed_drained inv' steady' whole' drained]
      exact (inv'.finalised still finalised).1

end Whole

theorem Finalises.later {bitrate : Nat} {ops before : List Op} (h : Finalises c bitrate ops before)
    (op : Op) : Finalises c bitrate (ops ++ [op]) before := by
  obtain ⟨media, samples, after, rfl, first, last⟩ := h
  exact ⟨media, samples, after ++ [op], by simp, first, last⟩

theorem Finalises.cases_last {bitrate : Nat} {ops before : List Op} {op : Op}
    (h : Finalises c bitrate (ops ++ [op]) before) :
    Finalises c bitrate ops before ∨ (before = ops ∧
      (∃ u replies, run (create c bitrate) ops = some (u, replies) ∧ u.encoder.done = false) ∧
      ∃ v replies, run (create c bitrate) (ops ++ [op]) = some (v, replies) ∧
        v.encoder.done = true) := by
  obtain ⟨media, samples, after, split, first, last⟩ := h
  rcases Run.concat_split split with ⟨rfl, rfl, _⟩ | ⟨rest, _, earlier⟩
  · exact .inr ⟨rfl, first, last⟩
  · exact .inl ⟨media, samples, rest, earlier, first, last⟩

structure Framed (pcm : Bytes → Rat → Bytes) (bitrate : Nat) (ops : List Op) (s : Stream c) :
    Prop where
  steady : s.AllSteady pcm
  whole : s.AllWhole pcm
  files : s.files = appended ops
  finalised : s.encoder.done = true → ∃ before, Finalises c bitrate ops before
  frames : ∀ before, Finalises c bitrate ops before → s.encoder.done = true ∧
    frames s.encoder.calls = Blocks.framed 3840 0 (floatsOf (played pcm before))

theorem create_framed (pcm : Bytes → Rat → Bytes) (bitrate : Nat) :
    Framed pcm bitrate [] (create c bitrate) where
  steady := by simp [AllSteady, create, entries]
  whole := by simp [AllWhole, create, files, entries]
  files := rfl
  finalised closed := by
    have active : (create c bitrate).encoder.done = false := rfl
    exact absurd (active.symm.trans closed) (by decide)
  frames before finalises := by
    obtain ⟨_, _, _, split, _⟩ := finalises
    simp at split

theorem Framed.steps {pcm : Bytes → Rat → Bytes} {bitrate : Nat} {ops : List Op}
    {replies : List Reply} {s t : Stream c} {op : Op} {reply : Reply}
    (reached : run (create c bitrate) ops = some (s, replies)) (inv : s.Inv pcm)
    (framed : Framed pcm bitrate ops s) (yields : op.Yields pcm) (whole : op.Whole pcm)
    (steps : Steps s op t reply) : Framed pcm bitrate (ops ++ [op]) t := by
  have reached' : run (create c bitrate) (ops ++ [op]) = some (t, replies ++ [reply]) := by
    rw [Run.run_append_eq_some]
    exact ⟨s, replies, [reply], reached, by simp [Run.run_cons steps.step], rfl⟩
  refine ⟨framed.steady.steps yields inv (op_cutsWhole inv framed.steady framed.whole op) steps,
    framed.whole.steps whole steps, ?_, ?_, ?_⟩
  · rw [steps.files, framed.files, appended, appended, appended, List.filterMap_append]
  · intro closed
    cases active : s.encoder.done with
    | true =>
      obtain ⟨before, finalises⟩ := framed.finalised active
      exact ⟨before, finalises.later op⟩
    | false =>
      obtain ⟨⟨media, samples, rfl⟩, _⟩ :=
        closing_frames inv framed.steady framed.whole yields steps active closed
      exact ⟨ops, media, samples, [], rfl, ⟨s, replies, reached, active⟩,
        t, replies ++ [reply], reached', closed⟩
  · intro before finalises
    rcases finalises.cases_last with earlier | ⟨rfl, ⟨u, _, first, active⟩, v, _, last, closed⟩
    · obtain ⟨closed, frames⟩ := framed.frames before earlier
      rw [steps.idle closed]
      exact ⟨closed, frames⟩
    · cases reached.symm.trans first
      cases reached'.symm.trans last
      obtain ⟨_, frames⟩ := closing_frames inv framed.steady framed.whole yields steps active closed
      rw [framed.files] at frames
      exact ⟨closed, frames⟩

/-- Every file appended has an output of whole samples, and every decoder yields it. -/
def WholeFiles (pcm : Bytes → Rat → Bytes) (ops : List Op) : Prop :=
  (∀ op ∈ ops, op.Yields pcm) ∧ ∀ op ∈ ops, op.Whole pcm

theorem run_framed {pcm : Bytes → Rat → Bytes} (bitrate : Nat) {ops : List Op}
    (playable : WholeFiles pcm ops) :
    ∃ t replies, run (create c bitrate) ops = some (t, replies) ∧ t.Inv pcm ∧
      Framed pcm bitrate ops t := by
  obtain ⟨t, replies, reached, inv, framed⟩ := run_keeps pcm bitrate
    (fun ops _ s => Framed pcm bitrate ops s) (fun _ op => op.Whole pcm)
    (create_framed (c := c) pcm bitrate)
    (fun _ _ _ _ _ _ reached inv framed yields whole steps =>
      framed.steps reached inv yields whole steps)
    ops playable.1 (Run.along_of_forall playable.2)
  exact ⟨t, replies, reached, inv, framed⟩

/-- Gapless streaming. The frames of a finalised stream are the samples of all files that
were appended before the finalising call, cut into frames and filled up with zeros at the
end, and they depend on nothing else. -/
theorem gapless (c : Codec) :
    (∀ (pcm : Bytes → Rat → Bytes) (bitrate : Nat) (ops : List Op), WholeFiles pcm ops →
      ∃ t replies, run (create c bitrate) ops = some (t, replies) ∧
        (t.encoder.done = true → ∃ before, Finalises c bitrate ops before ∧
          (frames t.encoder.calls).flatten = floatsOf (played pcm before) ++
            List.replicate (3840 - (floatsOf (played pcm before)).length % 3840) 0 ∧
          ∀ frame ∈ frames t.encoder.calls, frame.length = 3840)) ∧
    ∀ (pcm pcm' : Bytes → Rat → Bytes) (bitrate bitrate' : Nat) (ops ops' before before' : List Op)
      (t t' : Stream c) (replies replies' : List Reply),
      WholeFiles pcm ops → WholeFiles pcm' ops' →
      run (create c bitrate) ops = some (t, replies) →
      run (create c bitrate') ops' = some (t', replies') →
      Finalises c bitrate ops before → Finalises c bitrate' ops' before' →
      played pcm before = played pcm' before' →
      frames t.encoder.calls = frames t'.encoder.calls := by
  constructor
  · intro pcm bitrate ops playable
    obtain ⟨t, replies, reached, _, framed⟩ := run_framed (c := c) bitrate playable
    refine ⟨t, replies, reached, fun closed => ?_⟩
    obtain ⟨before, finalises⟩ := framed.finalised closed
    obtain ⟨_, frames⟩ := framed.frames before finalises
    refine ⟨before, finalises, ?_, ?_⟩
    · rw [frames, Blocks.flatten_framed (by decide)]
    · intro frame member
      rw [frames] at member
      exact Blocks.length_of_mem_framed (by decide) member
  · intro pcm pcm' bitrate bitrate' ops ops' before before' t t' replies replies' playable playable'
      reached reached' finalises finalises' same
    obtain ⟨u, us, first, _, framed⟩ := run_framed (c := c) bitrate playable
    obtain ⟨u', us', first', _, framed'⟩ := run_framed (c := c) bitrate' playable'
    cases first.symm.trans reached
    cases first'.symm.trans reached'
    rw [(framed.frames before finalises).2, (framed'.frames before' finalises').2, same]

theorem run_done {bitrate : Nat} {ops : List Op} {closed : Bool}
    (runs : (run (create c bitrate) ops).map (fun r => r.1.encoder.done) = some closed) :
    ∃ t replies, run (create c bitrate) ops = some (t, replies) ∧ t.encoder.done = closed := by
  obtain ⟨⟨t, replies⟩, reached, done⟩ := Option.map_eq_some_iff.mp runs
  exact ⟨t, replies, reached, done⟩

def twoSamples (filename : Bytes) (_ : Rat) : Bytes :=
  if filename = str "a" then List.replicate 16 1 else List.replicate 8 1

theorem twoSamples_whole (filename : Bytes) (offs : Rat) : 8 ∣ (twoSamples filename offs).length := by
  unfold twoSamples
  split <;> simp

def oneFile : List Op := [.append (str "a") 0]

def twoFiles : List Op :=
  [.append (str "b") 0, .advance (.ofFiles twoSamples) 1, .append (str "c") 0]

/-- The same samples in one file, and in two files and two requests. -/
theorem gapless_one_file_or_two :
    ∃ t t' replies replies',
      run (create Codec.plain 196000) (oneFile ++ [.advance (.ofFiles twoSamples) 3]) =
        some (t, replies) ∧
      run (create Codec.plain 196000) (twoFiles ++ [.advance (.ofFiles twoSamples) 2]) =
        some (t', replies') ∧
      t.encoder.done = true ∧ t'.encoder.done = true ∧
      (frames t.encoder.calls).flatten =
        floatsOf (List.replicate 16 1) ++ List.replicate 3836 0 ∧
      (∀ frame ∈ frames t.encoder.calls, frame.length = 3840) ∧
      frames t.encoder.calls = frames t'.encoder.calls := by
  obtain ⟨whole, same⟩ := gapless Codec.plain
  have files : WholeFiles twoSamples (oneFile ++ [.advance (.ofFiles twoSamples) 3]) := by
    simp [WholeFiles, oneFile, Op.Yields, Op.Whole, media_yields, twoSamples_whole]
  have files' : WholeFiles twoSamples (twoFiles ++ [.advance (.ofFiles twoSamples) 2]) := by
    simp [WholeFiles, twoFiles, Op.Yields, Op.Whole, media_yields, twoSamples_whole]
  have opened : (run (create Codec.plain 196000) oneFile).map
      (fun r => r.1.encoder.done) = some false := by decide +kernel
  have opened' : (run (create Codec.plain 196000) twoFiles).map
      (fun r => r.1.encoder.done) = some false := by decide +kernel
  have ended : (run (create Codec.plain 196000) (oneFile ++ [.advance (.ofFiles twoSamples) 3])).map
      (fun r => r.1.encoder.done) = some true := by decide +kernel
  have ended' : (run (create Codec.plain 196000) (twoFiles ++ [.advance (.ofFiles twoSamples) 2])).map
      (fun r => r.1.encoder.done) = some true := by decide +kernel
  obtain ⟨t, replies, reached, closed⟩ := run_done ended
  obtain ⟨t', replies', reached', closed'⟩ := run_done ended'
  have finalises : Finalises Codec.plain 196000 _ oneFile :=
    ⟨.ofFiles twoSamples, 3, [], rfl, run_done opened, t, replies, reached, closed⟩
  have finalises' : Finalises Codec.plain 196000 _ twoFiles :=
    ⟨.ofFiles twoSamples, 2, [], rfl, run_done opened', t', replies', reached', closed'⟩
  obtain ⟨u, _, first, frames⟩ := whole twoSamples 196000 _ files
  cases reached.symm.trans first
  obtain ⟨before, closes, samples, lengths⟩ := frames closed
  -- the only call that can have finalised the encoder is the last one
  have before_eq : before = oneFile := by
    rcases closes.cases_last with earlier | ⟨same, _⟩
    · obtain ⟨_, _, after, split, _⟩ := earlier
      have inFile : Op.advance _ _ ∈ oneFile := split ▸ List.mem_append_right before List.mem_cons_self
      simp [oneFile] at inFile
    · exact same
  have playedBefore : played twoSamples before = List.replicate 16 1 := by
    rw [before_eq]
    decide
  rw [playedBefore] at samples
  exact ⟨t, t', replies, replies', reached, reached', closed, closed', samples, lengths,
    same twoSamples twoSamples 196000 196000 _ _ _ _ t t' replies replies' files files' reached
      reached' finalises finalises' (by decide)⟩

end Stream

end HttpAudioServer
