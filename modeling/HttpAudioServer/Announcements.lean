import HttpAudioServer.Gapless

/-! The metadata segments: which files they announce, in which order, and where each one
starts. -/
namespace HttpAudioServer

variable {c : Codec}

namespace Stream

def announced (replies : List Reply) : List Record :=
  replies.flatMap fun
    | .segments metadata _ => metadata
    | .appended | .threw _ => []

theorem none_threw_concat {replies : List Reply} {reply : Reply}
    (returns : ∀ e, Reply.threw e ∉ replies ++ [reply]) :
    (∀ e, Reply.threw e ∉ replies) ∧ ∀ e, reply ≠ .threw e := by
  constructor
  · exact fun e member => returns e (List.mem_append_left _ member)
  · rintro e rfl
    exact returns e (List.mem_append_right _ List.mem_cons_self)

/-- Where files start and what they are called, when they are played from sample `pos` on. -/
def schedule (pcm : Bytes → Rat → Bytes) (pos : Nat) : List (Bytes × Rat) → List (Rat × Bytes)
  | [] => []
  | file :: files =>
    ((pos : Rat) / 48000, file.1) ::
      schedule pcm (pos + (pcm file.1 file.2).length / 8) files

def samplesOf (pcm : Bytes → Rat → Bytes) (files : List (Bytes × Rat)) : Nat :=
  (files.map fun file => (pcm file.1 file.2).length / 8).sum

section Schedule

variable (pcm : Bytes → Rat → Bytes)

theorem schedule_concat (pos : Nat) (files : List (Bytes × Rat)) (file : Bytes × Rat) :
    schedule pcm pos (files ++ [file]) =
      schedule pcm pos files ++ [(((pos + samplesOf pcm files : Nat) : Rat) / 48000, file.1)] := by
  induction files generalizing pos with
  | nil => simp [schedule, samplesOf]
  | cons first files ih =>
    simp only [List.cons_append, schedule, ih, samplesOf, List.map_cons, List.sum_cons, Nat.add_assoc]

theorem schedule_get (pos : Nat) (files : List (Bytes × Rat)) (k : Nat) (inside : k < files.length) :
    (schedule pcm pos files)[k]? =
      some (((pos + samplesOf pcm (files.take k) : Nat) : Rat) / 48000, files[k].1) := by
  induction files generalizing pos k with
  | nil => simp at inside
  | cons first files ih =>
    cases k with
    | zero => simp [schedule, samplesOf]
    | succ k =>
      simp only [List.length_cons, Nat.add_lt_add_iff_right] at inside
      simp only [schedule, List.getElem?_cons_succ, ih _ k inside, List.getElem_cons_succ,
        List.take_succ_cons, samplesOf, List.map_cons, List.sum_cons, Nat.add_assoc]

end Schedule

def opened (s : Stream c) : List Entry := s.entries.filter fun e => e.dec.isSome

section Call

variable {pcm : Bytes → Rat → Bytes} {media : Media} {l l' : Advance c}

theorem filter_fresh {entries : List Entry} (fresh : ∀ e ∈ entries, e.dec = none) :
    (entries.filter fun e => e.dec.isSome) = [] := by
  rw [List.filter_eq_nil_iff]
  intro e member
  simp [fresh e member]

theorem filter_removed {s : Stream c} (inv : s.Inv pcm) :
    (s.removed.filter fun e => e.dec.isSome) = s.removed := by
  rw [List.filter_eq_self]
  intro e member
  obtain ⟨d, dec, _⟩ := inv.exhausted e member
  simp [dec]

theorem opened_fresh {s : Stream c} (inv : s.Inv pcm) {e : Entry} {later : List Entry}
    (front : s.decoders = e :: later) (fresh : e.dec = none) : s.opened = s.removed := by
  rw [opened, entries, front, List.filter_append, filter_removed inv, List.filter_cons_of_neg,
    filter_fresh (inv.behind front), List.append_nil]
  simp [fresh]

theorem opened_drained {s : Stream c} (inv : s.Inv pcm) (drained : s.decoders = []) :
    s.opened = s.entries := by
  rw [opened, entries, drained, List.append_nil, filter_removed inv]

theorem opened_front {s : Stream c} (inv : s.Inv pcm) {e : Entry} {later : List Entry}
    (front : s.decoders = e :: later) {d : Decoder} (dec : e.dec = some d) :
    s.opened = s.removed ++ [e] := by
  rw [opened, entries, front, List.filter_append, filter_removed inv, List.filter_cons_of_pos,
    filter_fresh (inv.behind front)]
  simp [dec]

theorem opened_prefix {s : Stream c} (inv : s.Inv pcm) :
    ∃ later, s.entries = s.opened ++ later ∧ ∀ e ∈ later, e.reads = [] := by
  cases front : s.decoders with
  | nil =>
    exact ⟨[], by rw [opened_drained inv front, List.append_nil], by simp⟩
  | cons e later =>
    have silent : ∀ x ∈ later, x.reads = [] :=
      fun x member => Entry.reads_of_none (inv.behind front x member)
    cases dec : e.dec with
    | none =>
      refine ⟨e :: later, by rw [opened_fresh inv front dec, entries, front], ?_⟩
      intro x member
      rcases List.mem_cons.mp member with rfl | still
      · exact Entry.reads_of_none dec
      · exact silent x still
    | some d =>
      exact ⟨later, by rw [opened_front inv front dec, entries, front]; simp, silent⟩

/-- Each opened entry has its record, in order, and each record says where its file starts. -/
structure Announces (pcm : Bytes → Rat → Bytes) (announced : List Record) (s : Stream c) : Prop where
  records : s.opened.map Entry.record = announced.map some
  starts : announced.map (fun r => (r.start, r.filename)) = schedule pcm 0 (s.opened.map Entry.file)

theorem length_fed {entries : List Entry}
    (each : ∀ e ∈ entries, e.fed = wholeFloats (e.output pcm)) :
    (entries.flatMap Entry.fed).length = samplesOf pcm (entries.map Entry.file) * 2 := by
  induction entries with
  | nil => rfl
  | cons e entries ih =>
    have first : e.fed.length = (pcm e.file.1 e.file.2).length / 8 * 2 := by
      rw [each e List.mem_cons_self, length_wholeFloats]
      rfl
    have others := ih fun x member => each x (List.mem_cons_of_mem _ member)
    simp only [samplesOf] at others
    simp only [List.flatMap_cons, List.length_append, samplesOf, List.map_cons, List.sum_cons,
      first, others, Nat.add_mul]

theorem samples_removed {s : Stream c} (inv : s.Inv pcm) (steady : s.AllSteady pcm) {e : Entry}
    {later : List Entry} (front : s.decoders = e :: later) (fresh : e.dec = none) :
    s.nSamples = samplesOf pcm (s.removed.map Entry.file) := by
  have fed := flatMap_front Entry.fed_silent front (inv.behind front)
  rw [Entry.fed_silent e (Entry.reads_of_none fresh), List.append_nil] at fed
  have samples := inv.samples
  rw [Stream.fed, fed, length_fed (AllSteady.reads_aligned steady inv).2] at samples
  omega

theorem Act.announces {past : List Record} (inv : l.stream.Inv pcm)
    (steady : l.stream.AllSteady pcm) (announces : Announces pcm (past ++ l.metadata) l.stream)
    (act : Act media l l') (inv' : l'.stream.Inv pcm) :
    Announces pcm (past ++ l'.metadata) l'.stream := by
  obtain ⟨records, starts⟩ := announces
  cases act with
  | @opens e later output metadata front fresh decoder probe =>
    rw [opened_fresh inv front fresh] at records starts
    have opened := opened_front inv' rfl rfl
    have start := samples_removed inv steady front fresh
    constructor
    · rw [opened]
      simp only [Advance.opened, Advance.withFront, List.map_append, List.map_cons, List.map_nil]
      rw [records, List.map_append, List.append_assoc]
    · rw [opened]
      simp only [Advance.opened, Advance.withFront, List.map_append, List.map_cons, List.map_nil]
      rw [schedule_concat, ← starts, Nat.zero_add, ← start, List.map_append, List.append_assoc]
      rfl
  | @reads e later d next got encoder out wanted front dec taken left log fed =>
    rw [opened_front inv front dec] at records starts
    have opened := opened_front inv' rfl rfl
    constructor
    · rw [opened]
      simpa [Advance.read] using records
    · rw [opened]
      simpa [Advance.read, Entry.file] using starts
  | @pops e later d wanted front dec ended =>
    have same : (l.popped e later).stream.opened = l.stream.opened := by
      rw [opened, entries_pops front, Stream.opened]
    exact ⟨same ▸ records, same ▸ starts⟩

end Call

section Run

variable {pcm : Bytes → Rat → Bytes}

theorem Acts.announces {past : List Record} {media : Media} {samples : Nat} {s : Stream c}
    {l : Advance c} (yields : media.Yields pcm) (inv : s.Inv pcm) (steady : s.AllSteady pcm)
    (cuts : Op.CutsWhole pcm s (.advance media samples)) (announces : Announces pcm past s)
    (acts : Acts media (.start samples s) l) : Announces pcm (past ++ l.metadata) l.stream := by
  induction acts with
  | refl => simpa [Advance.start] using announces
  | tail before act ih =>
    have inv' := Inv.acts yields inv before
    exact act.announces inv' (steady.acts yields inv cuts before) ih (inv'.act yields act)

theorem opened_append (s : Stream c) (filename : Bytes) (offs : Rat) :
    (s.append filename offs).opened = s.opened := by
  simp [opened, entries_append, List.filter_append]

theorem Steps.announces {past : List Record} {s t : Stream c} {op : Op} {reply : Reply}
    (yields : op.Yields pcm) (inv : s.Inv pcm) (steady : s.AllSteady pcm)
    (cuts : op.CutsWhole pcm s) (announces : Announces pcm past s) (steps : Steps s op t reply)
    (returns : ∀ e, reply ≠ .threw e) : Announces pcm (past ++ announced [reply]) t := by
  cases steps with
  | appends filename offs =>
    obtain ⟨records, starts⟩ := announces
    have same := opened_append s filename offs
    have none_new : past ++ announced [.appended] = past := List.append_nil _
    rw [none_new]
    exact ⟨same ▸ records, same ▸ starts⟩
  | @returns media samples l l' returned acts stop finishes =>
    have during := Acts.announces yields inv steady cuts announces acts
    have new : announced [.segments l'.metadata l'.osBufData] = l'.metadata := by
      simp [announced]
    rw [new]
    cases finishes <;> exact ⟨during.records, during.starts⟩
  | throws => exact absurd rfl (returns _)

structure Scheduled (pcm : Bytes → Rat → Bytes) (ops : List Op) (replies : List Reply)
    (s : Stream c) : Prop where
  steady : s.AllSteady pcm
  whole : s.AllWhole pcm
  files : s.files = appended ops
  announces : (∀ e, Reply.threw e ∉ replies) → Announces pcm (announced replies) s

theorem Scheduled.steps {ops : List Op} {replies : List Reply} {s t : Stream c} {op : Op}
    {reply : Reply} (inv : s.Inv pcm) (scheduled : Scheduled pcm ops replies s)
    (yields : op.Yields pcm) (whole : op.Whole pcm) (steps : Steps s op t reply) :
    Scheduled pcm (ops ++ [op]) (replies ++ [reply]) t := by
  obtain ⟨steady, all_whole, files, announces⟩ := scheduled
  have cuts := op_cutsWhole inv steady all_whole op
  refine ⟨steady.steps yields inv cuts steps, all_whole.steps whole steps, ?_, ?_⟩
  · rw [steps.files, files, appended, appended, appended, List.filterMap_append]
  · intro returns
    obtain ⟨earlier, last⟩ := none_threw_concat returns
    have all := steps.announces yields inv steady cuts (announces earlier) last
    rwa [announced, announced, ← List.flatMap_append] at all

/-- In a run in which no call throws, the records name the files of the playlist from the
first one on, each starts where the files before it end, and no file that has been read
from is missing. -/
theorem records_in_order (pcm : Bytes → Rat → Bytes) (bitrate : Nat) (ops : List Op)
    (files : WholeFiles pcm ops) :
    ∃ t replies, run (create c bitrate) ops = some (t, replies) ∧
      t.entries.map Entry.file = appended ops ∧
      ((∀ e, Reply.threw e ∉ replies) →
        (∀ k r, (announced replies)[k]? = some r → ∃ file, (appended ops)[k]? = some file ∧
          r.filename = file.1 ∧ r.start = (samplesOf pcm ((appended ops).take k) : Rat) / 48000) ∧
        ∀ k e, t.entries[k]? = some e → e.delivered ≠ [] → k < (announced replies).length) := by
  have initial : Scheduled pcm [] [] (create c bitrate) :=
    { steady := by simp [AllSteady, create, entries]
      whole := by simp [AllWhole, create, Stream.files, entries]
      files := rfl
      announces := fun _ => ⟨rfl, rfl⟩ }
  obtain ⟨t, replies, reached, inv, scheduled⟩ := run_keeps pcm bitrate
    (fun ops replies s => Scheduled pcm ops replies s) (fun _ op => op.Whole pcm) initial
    (fun _ _ _ _ _ _ _ inv scheduled yields whole steps => scheduled.steps inv yields whole steps)
    ops files.1 (Run.along_of_forall files.2)
  refine ⟨t, replies, reached, scheduled.files, fun returns => ?_⟩
  obtain ⟨records, starts⟩ := scheduled.announces returns
  obtain ⟨later, entries, silent⟩ := opened_prefix inv
  have count : t.opened.length = (announced replies).length := by
    simpa using congrArg List.length records
  have playlist : appended ops = t.opened.map Entry.file ++ later.map Entry.file := by
    rw [← scheduled.files, Stream.files, entries, List.map_append]
  constructor
  · intro k r found
    have inside : k < (t.opened.map Entry.file).length := by
      rw [List.length_map, count]
      exact (List.getElem?_eq_some_iff.mp found).1
    have entry := congrArg (·[k]?) starts
    simp only [List.getElem?_map, found, Option.map_some, schedule_get pcm 0 _ k inside,
      Option.some.injEq, Prod.mk.injEq, Nat.zero_add] at entry
    refine ⟨(t.opened.map Entry.file)[k], ?_, entry.2, ?_⟩
    · rw [playlist, List.getElem?_append_left inside, List.getElem?_eq_getElem inside]
    · rw [playlist, List.take_append_of_le_length (Nat.le_of_lt inside)]
      exact entry.1
  · intro k e found read
    by_contra beyond
    rw [entries, List.getElem?_append_right (by omega)] at found
    exact read (Entry.delivered_silent e (silent e (List.mem_of_getElem? found)))

def Reply.returned : Reply → Bool
  | .appended | .segments _ _ => true
  | .threw _ => false

theorem run_returned {s : Stream c} {ops : List Op}
    (runs : (run s ops).map (fun r => r.1.encoder.done && r.2.all Reply.returned) = some true) :
    ∃ t rs, run s ops = some (t, rs) ∧ t.encoder.done = true ∧ ∀ e, Reply.threw e ∉ rs := by
  obtain ⟨⟨t, rs⟩, ended, law⟩ := Option.map_eq_some_iff.mp runs
  rw [Bool.and_eq_true, List.all_eq_true] at law
  exact ⟨t, rs, ended, law.1, fun e member => Bool.false_ne_true (law.2 _ member)⟩

def exactFit : List Op :=
  [.append (str "a") 0, .append (str "b") 0, .advance (.ofFiles twoSamples) 2,
    .advance (.ofFiles twoSamples) 1]

/-- The first request is as long as the first file, which the second one removes. -/
theorem records_in_order_exact_fit :
    ∃ t replies, run (create Codec.plain 196000) exactFit = some (t, replies) ∧
      (announced replies).length = 2 ∧
      ∀ r, (announced replies)[1]? = some r → r.filename = str "b" ∧ r.start = 2 / 48000 := by
  have files : WholeFiles twoSamples exactFit := by
    simp [WholeFiles, exactFit, Op.Yields, Op.Whole, media_yields, twoSamples_whole]
  have evaluated : (run (create Codec.plain 196000) exactFit).map (fun r =>
      (r.2.all Reply.returned, (announced r.2).length)) = some (true, 2) := by
    decide +kernel
  obtain ⟨t, replies, reached, _, announces⟩ :=
    records_in_order (c := Codec.plain) twoSamples 196000 _ files
  rw [reached, Option.map_some, Option.some.injEq, Prod.mk.injEq, List.all_eq_true] at evaluated
  have returns : ∀ e, Reply.threw e ∉ replies :=
    fun e member => Bool.false_ne_true (evaluated.1 _ member)
  refine ⟨t, replies, reached, evaluated.2, fun r second => ?_⟩
  obtain ⟨file, found, name, start⟩ := (announces returns).1 1 r second
  cases found
  exact ⟨name, start⟩

end Run

end Stream

end HttpAudioServer
