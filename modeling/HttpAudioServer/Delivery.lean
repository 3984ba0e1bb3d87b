import HttpAudioServer.Playlist

/-! What one call reads, which entries it removes, and when it finalises the encoder. -/
namespace HttpAudioServer

open Sources

variable {c : Codec}

namespace Stream

section Call

variable {pcm : Bytes → Rat → Bytes} {media : Media} {l l' : Advance c}

/-- What has been read and what the rest of the call will draw, before and after. -/
structure Continues (pcm : Bytes → Rat → Bytes) (l l' : Advance c) : Prop where
  drawn : l'.stream.delivered ++ (draw l'.nBytes (l'.stream.unreads pcm)).1 =
    l.stream.delivered ++ (draw l.nBytes (l.stream.unreads pcm)).1
  left : (draw l'.nBytes (l'.stream.unreads pcm)).2 = (draw l.nBytes (l.stream.unreads pcm)).2

theorem Act.continues (yields : media.Yields pcm) (inv : l.stream.Inv pcm) (act : Act media l l') :
    Continues pcm l l' := by
  cases act with
  | @opens e later output metadata front fresh decoder probe =>
    generalize (⟨(l.stream.nSamples : Rat) / 48000, e.filename, metadata⟩ : Record) = record
    have unreads : (l.opened e later output record).stream.unreads pcm = l.stream.unreads pcm :=
      unreads_opens yields front fresh decoder (some record)
    have delivered : (l.opened e later output record).stream.delivered = l.stream.delivered :=
      flatMap_opens Entry.delivered_silent front (inv.behind front) fresh output (some record)
    constructor
    · rw [unreads, delivered]
      rfl
    · rw [unreads]
      rfl
  | @reads e later d next got encoder out wanted front dec taken left log fed =>
    obtain ⟨got_eq, unreads⟩ := unreads_reads inv front dec taken left log encoder out
    have delivered : (l.read e later next got encoder out).stream.delivered =
        l.stream.delivered ++ got :=
      flatMap_reads Entry.delivered_silent front (inv.behind front) (Entry.delivered_read dec log)
    have drawn := draw_read (e.unread pcm) (later.map (Entry.unread pcm)) wanted
    rw [← got_eq] at drawn
    constructor
    · rw [delivered, unreads, unreads_front front, drawn, List.append_assoc]
      rfl
    · rw [unreads, unreads_front front, drawn]
      rfl
  | @pops e later d wanted front dec ended =>
    have unreads : l.stream.unreads pcm = [] :: (l.popped e later).stream.unreads pcm := by
      rw [unreads_front front, Entry.unread_of_some dec ended]
      rfl
    constructor
    · rw [unreads, draw_exhausted _ wanted, Stream.delivered, entries_pops front, Stream.delivered]
      rfl
    · rw [unreads, draw_exhausted _ wanted]
      rfl

theorem Acts.continues (yields : media.Yields pcm) (inv : l.stream.Inv pcm)
    (acts : Acts media l l') : Continues pcm l l' := by
  induction acts with
  | refl => exact ⟨rfl, rfl⟩
  | tail before act ih =>
    have next := act.continues yields (inv.acts yields before)
    exact ⟨next.drawn.trans ih.drawn, next.left.trans ih.left⟩

theorem draw_stopped {queue : List Bytes} (stop : wants l = false)
    (queue_eq : queue = l.stream.unreads pcm) : draw l.nBytes queue = ([], queue) := by
  subst queue_eq
  simp only [wants, Bool.and_eq_false_iff, decide_eq_false_iff_not, Bool.not_eq_false',
    List.isEmpty_iff] at stop
  rcases stop with satisfied | drained
  · have zero : l.nBytes = 0 := by omega
    rw [zero, draw_zero]
  · have none_left : l.stream.unreads pcm = [] := by rw [unreads, drained, List.map_nil]
    rw [none_left, draw_nil]

theorem loop_delivers {s : Stream c} {samples : Nat} (yields : media.Yields pcm) (inv : s.Inv pcm)
    (acts : Acts media (.start samples s) l) (stop : wants l = false) :
    l.stream.delivered = s.delivered ++ (s.unreads pcm).flatten.take (samples * 2 * 4) ∧
    l.stream.unreads pcm = (draw (samples * 2 * 4) (s.unreads pcm)).2 := by
  obtain ⟨drawn, left⟩ := Acts.continues yields inv acts
  rw [draw_stopped stop rfl] at drawn left
  rw [List.append_nil, draw_fst] at drawn
  exact ⟨drawn, left⟩

/-- An entry that gave less than it was asked for is at the front, exhausted, and about to
be removed while the call goes on. -/
def NoneShort (l : Advance c) : Prop :=
  ∀ e ∈ l.stream.decoders, ∀ r ∈ e.reads, r.got.length ≠ r.requested →
    0 < l.nBytes ∧ ∃ d, e.dec = some d ∧ d.stdout = .finite []

theorem Act.noneShort (inv : l.stream.Inv pcm)
    (none_short : NoneShort l) (act : Act media l l') : NoneShort l' := by
  cases act with
  | opens front fresh decoder probe =>
    intro x member r read short
    rcases List.mem_cons.mp member with rfl | still
    · exact absurd read (List.not_mem_nil)
    · exact none_short x (front ▸ List.mem_cons_of_mem _ still) r read short
  | @reads e later d next got encoder out wanted front dec taken left log fed =>
    subst taken
    have atMost := Output.length_take_le l.nBytes d.stdout
    have ended : (d.stdout.take l.nBytes).length ≠ l.nBytes →
        0 < l.nBytes - (d.stdout.take l.nBytes).length ∧ next.stdout = .finite [] := by
      intro short
      exact ⟨by omega, left.trans (Output.drop_of_short short)⟩
    intro x member r read short
    rcases List.mem_cons.mp member with rfl | still
    · rw [Entry.reads_read dec log, List.mem_append, List.mem_singleton] at read
      rcases read with old | rfl
      · obtain ⟨_, d', same, exhausted⟩ := none_short e (front ▸ List.mem_cons_self) r old short
        cases dec.symm.trans same
        have nothing : (d.stdout.take l.nBytes).length ≠ l.nBytes := by
          simp only [exhausted, Output.take, List.take_nil, List.length_nil]
          omega
        exact ⟨(ended nothing).1, next, rfl, (ended nothing).2⟩
      · exact ⟨(ended short).1, next, rfl, (ended short).2⟩
    · rw [Entry.reads_of_none (inv.behind front x still)] at read
      exact absurd read List.not_mem_nil
  | @pops e later d wanted front dec ended =>
    intro x member r read short
    exact none_short x (front ▸ List.mem_cons_of_mem _ member) r read short

theorem Acts.noneShort (yields : media.Yields pcm) (inv : l.stream.Inv pcm)
    (none_short : NoneShort l) (acts : Acts media l l') : NoneShort l' := by
  induction acts with
  | refl => exact none_short
  | tail before act ih => exact act.noneShort (inv.acts yields before) ih

theorem Acts.fresh {e : Entry} (acts : Acts media l l') (member : e ∈ l'.stream.decoders)
    (fresh : e.dec = none) : e ∈ l.stream.decoders := by
  induction acts with
  | refl => exact member
  | tail _ act ih =>
    cases act with
    | opens front _ _ _ =>
      rcases List.mem_cons.mp member with rfl | still
      · cases fresh
      · exact ih (front ▸ List.mem_cons_of_mem _ still)
    | reads _ front _ _ _ _ _ =>
      rcases List.mem_cons.mp member with rfl | still
      · cases fresh
      · exact ih (front ▸ List.mem_cons_of_mem _ still)
    | pops _ front _ _ => exact ih (front ▸ List.mem_cons_of_mem _ member)

end Call

theorem Fails.silent {pcm : Bytes → Rat → Bytes} {media : Media} {l l' : Advance c}
    (inv : l.stream.Inv pcm) (fails : Fails media l l') :
    ∀ e ∈ l'.stream.decoders, e.reads = [] := by
  cases fails with
  | decoder front fresh _ =>
    intro e member
    rw [front] at member
    rcases List.mem_cons.mp member with rfl | still
    · exact Entry.reads_of_none fresh
    · exact Entry.reads_of_none (inv.behind front e still)
  | metadata front fresh _ _ =>
    intro e member
    rcases List.mem_cons.mp member with rfl | still
    · rfl
    · exact Entry.reads_of_none (inv.behind front e still)

def AllFull (s : Stream c) : Prop :=
  ∀ e ∈ s.decoders, ∀ r ∈ e.reads, r.got.length = r.requested

def Playable (s : Stream c) (media : Media) : Prop :=
  ∀ e ∈ s.decoders, e.dec = none →
    (∃ output, media.decoder e.filename e.offs = .ok output) ∧
      ∃ metadata, media.metadata e.filename = .ok metadata

theorem Fails.impossible {media : Media} {s : Stream c} {samples : Nat} {l l' : Advance c}
    (fails : Fails media l l') (playable : s.Playable media)
    (acts : Acts media (.start samples s) l) : False := by
  cases fails with
  | @decoder e later error front fresh failed =>
    have member : e ∈ s.decoders := acts.fresh (front ▸ List.mem_cons_self) fresh
    obtain ⟨⟨output, found⟩, _⟩ := playable e member fresh
    cases found.symm.trans failed
  | @metadata e later output error front fresh decoder failed =>
    have member : e ∈ s.decoders := acts.fresh (front ▸ List.mem_cons_self) fresh
    obtain ⟨_, metadata, found⟩ := playable e member fresh
    cases found.symm.trans failed

theorem allFull_start {s : Stream c} (full : s.AllFull) (samples : Nat) :
    NoneShort (.start samples s) :=
  fun e member r read short => absurd (full e member r read) short

theorem AllFull.steps {pcm : Bytes → Rat → Bytes} {s t : Stream c} {op : Op} {reply : Reply}
    (yields : op.Yields pcm) (inv : s.Inv pcm) (full : s.AllFull) (steps : Steps s op t reply) :
    t.AllFull := by
  cases steps with
  | appends filename offs =>
    intro e member r read
    rcases List.mem_append.mp member with old | new
    · exact full e old r read
    · obtain rfl := List.mem_singleton.mp new
      exact absurd read List.not_mem_nil
  | @returns media samples l l' returned acts stop finishes =>
    have none_short := Acts.noneShort yields inv (allFull_start full samples) acts
    cases finishes with
    | stays more =>
      intro e member r read
      by_contra short
      have wanted := (none_short e member r read short).1
      simp [wants, wanted, more] at stop
    | closes drained closed =>
      intro e member
      simp [drained] at member
  | throws thrown acts fails =>
    intro e member r read
    rw [fails.silent (Inv.acts yields inv acts) e member] at read
    exact absurd read List.not_mem_nil

/-- What a call that returns delivers, out of what was left and for a request of `n` bytes. -/
structure Delivers (pcm : Bytes → Rat → Bytes) (n : Nat) (s t : Stream c) : Prop where
  delivered : t.delivered = s.delivered ++ (s.unreads pcm).flatten.take n
  left : (t.unreads pcm).flatten = (s.unreads pcm).flatten.drop n
  finalised : t.encoder.done = true ↔ (s.unreads pcm).flatten.length < n
  continues : (s.unreads pcm).flatten.length = n → t.encoder.done = false ∧
    ∀ filename offs, ((t.append filename offs).unreads pcm).flatten = pcm filename offs

theorem drop_draw (n : Nat) (queue : List Bytes) :
    (draw n queue).2.flatten = queue.flatten.drop n := by
  have whole := draw_flatten n queue
  rw [draw_fst] at whole
  nth_rewrite 2 [← List.take_append_drop n queue.flatten] at whole
  exact List.append_cancel_left whole

theorem unreads_append (pcm : Bytes → Rat → Bytes) (s : Stream c) (filename : Bytes) (offs : Rat) :
    (s.append filename offs).unreads pcm = s.unreads pcm ++ [pcm filename offs] := by
  simp [Stream.append, unreads, Entry.unread, Entry.output]

theorem delivers {pcm : Bytes → Rat → Bytes} {media : Media} {samples : Nat} {s : Stream c}
    {l l' : Advance c} (yields : media.Yields pcm) (inv : s.Inv pcm)
    (active : s.encoder.done = false) (wanted : 0 < samples)
    (acts : Acts media (.start samples s) l) (stop : wants l = false) (finishes : Finishes l l') :
    Delivers pcm (8 * samples) s l'.stream := by
  have request : samples * 2 * 4 = 8 * samples := by omega
  obtain ⟨delivered, left⟩ := loop_delivers yields inv acts stop
  rw [request] at delivered left
  have drained : l.stream.decoders = [] ↔ (s.unreads pcm).flatten.length < 8 * samples := by
    rw [← draw_snd_eq_nil _ (by omega), ← left, unreads, List.map_eq_nil_iff]
  have kept : l'.stream.delivered = l.stream.delivered ∧
      l'.stream.unreads pcm = l.stream.unreads pcm := by
    cases finishes <;> exact ⟨rfl, rfl⟩
  have finalised : l'.stream.encoder.done = true ↔ l.stream.decoders = [] := by
    cases finishes with
    | stays more =>
      have still : l.stream.encoder.done = false := acts.done.trans active
      simp [still, more]
    | closes empty closed =>
      have done := congrArg Framer.done closed.view
      simp only [Framer.finalize_done] at done
      exact ⟨fun _ => empty, fun _ => done⟩
  refine ⟨kept.1.trans delivered, ?_, finalised.trans drained, ?_⟩
  · rw [kept.2, left, drop_draw]
  · intro exact_fit
    constructor
    · rw [← Bool.not_eq_true, finalised, drained]
      omega
    · intro filename offs
      rw [unreads_append, List.flatten_append, kept.2, left, drop_draw, ← exact_fit, List.drop_length]
      simp

theorem Reachable.allFull {pcm : Bytes → Rat → Bytes} {s : Stream c} (reachable : s.Reachable pcm) :
    s.AllFull := by
  have initial : ∀ bitrate, (create c bitrate).AllFull := by simp [AllFull, create]
  exact (reachable.keeps AllFull initial
    fun _ _ _ _ inv full yields steps => AllFull.steps yields inv full steps).2

/-- Exact delivery: a call reads what was asked for, in playlist order, or all there is, and
finalises the encoder exactly if that is too little. -/
theorem advance_delivers {pcm : Bytes → Rat → Bytes} {s : Stream c} (reachable : s.Reachable pcm)
    (active : s.encoder.done = false) {media : Media} (yields : media.Yields pcm)
    (samples : Nat) (wanted : 0 < samples) :
    ∃ t reply, step s (.advance media samples) = some (t, reply) ∧
      (∀ e ∈ t.removed, e.delivered = e.output pcm) ∧
      (∀ e ∈ t.decoders, ∀ r ∈ e.reads, r.got.length = r.requested) ∧
      (s.Playable media → ∃ metadata data, reply = .segments metadata data) ∧
      ∀ metadata data, reply = .segments metadata data → Delivers pcm (8 * samples) s t := by
  have inv := reachable.inv
  obtain ⟨t, reply, stepped, steps⟩ := step_spec inv.toReady (.advance media samples)
  have allowed : Op.Yields pcm (.advance media samples) := yields
  have inv' := inv.steps allowed steps
  refine ⟨t, reply, stepped, fun e member => inv'.removed_delivered member,
    AllFull.steps allowed inv reachable.allFull steps, ?_, ?_⟩
  · intro playable
    cases steps with
    | returns => exact ⟨_, _, rfl⟩
    | throws _ acts fails => exact (fails.impossible playable acts).elim
  · intro metadata data returned
    cases steps with
    | returns _ acts stop finishes => exact delivers yields inv active wanted acts stop finishes
    | throws => cases returned

def threeSamples (filename : Bytes) (_ : Rat) : Bytes :=
  if filename = str "a" then List.replicate 8 1 else List.replicate 16 2

def bothFiles : Stream Codec.plain :=
  ((create Codec.plain 196000).append (str "a") 0).append (str "b") 0

/-- All of one file and half of the next one. -/
theorem advance_delivers_two_files :
    ∃ t metadata data,
      step bothFiles (.advance (.ofFiles threeSamples) 2) = some (t, .segments metadata data) ∧
      t.removed.map Entry.filename = [str "a"] ∧
      (∀ e ∈ t.removed, e.delivered = e.output threeSamples) ∧
      t.delivered = List.replicate 8 1 ++ List.replicate 8 2 ∧
      (t.unreads threeSamples).flatten = List.replicate 8 2 ∧ t.encoder.done = false := by
  have reachable : bothFiles.Reachable threeSamples :=
    ⟨196000, [.append (str "a") 0, .append (str "b") 0], [.appended, .appended],
      by simp [Op.Yields], rfl⟩
  have playable : bothFiles.Playable (.ofFiles threeSamples) :=
    fun _ _ _ => ⟨⟨_, rfl⟩, _, rfl⟩
  obtain ⟨t, reply, stepped, removed, _, returns, exactly⟩ := advance_delivers reachable rfl
    (media_yields threeSamples) 2 (by decide)
  obtain ⟨metadata, data, rfl⟩ := returns playable
  have delivers := exactly metadata data rfl
  have names : (step bothFiles (.advance (.ofFiles threeSamples) 2)).map
      (fun r => r.1.removed.map Entry.filename) = some [str "a"] := by decide +kernel
  rw [stepped, Option.map_some, Option.some.injEq] at names
  have unread : (bothFiles.unreads threeSamples).flatten =
      List.replicate 8 1 ++ List.replicate 16 2 := by decide
  refine ⟨t, metadata, data, stepped, names, removed, ?_, ?_, ?_⟩
  · rw [delivers.delivered, unread]
    decide
  · rw [delivers.left, unread]
    decide
  · rw [← Bool.not_eq_true, delivers.finalised, unread]
    decide

end Stream

end HttpAudioServer
