import HttpAudioServer.Answers
import HttpAudioServer.Library.Regex

/-! The request map as a whole. Its regexes have no text in common, so that it does not matter
in which order they are tried. -/
namespace HttpAudioServer

open Regex Regex.Expr

variable {c : Codec}

section Patterns

def endsNoLine (ch : UInt8) : Bool := ch ≠ 10 && ch ≠ 13

/-- `^/(index.html)?$`. A match is one of the whole text, so that the anchors add nothing. -/
def indexPattern : Expr UInt8 :=
  seq (literal id (str "/")) (optional (group
    (seq (literal id (str "index")) (seq (char endsNoLine) (literal id (str "html"))))))

/-- `^/stream/create$` -/
def createPattern : Expr UInt8 := literal id (str "/stream/create")

/-- `^/stream/([A-Za-z0-9]+)/action$` -/
def streamPattern (action : Bytes) : Expr UInt8 :=
  seq (literal id (str "/stream/"))
    (seq (group (plus (char isAlphanum))) (literal id (str "/" ++ action)))

/-- The regexes of the request map, as they stand there. -/
def patterns : List (Bytes × Expr UInt8) := [
  (str "GET", indexPattern),
  (str "POST", createPattern),
  (str "POST", streamPattern (str "append")),
  (str "POST", streamPattern (str "advance")),
  (str "POST", streamPattern (str "destroy"))]

def Finds (regex : Bytes → Option (List Bytes)) (pattern : Expr UInt8) : Prop :=
  ∀ uri sm, regex uri = some sm ↔ ∃ groups, pattern.Matches uri groups ∧ sm = uri :: groups

theorem matches_indexPattern {uri : Bytes} {groups : List Bytes} :
    indexPattern.Matches uri groups ↔ (uri = str "/" ∧ groups = [[]]) ∨
      ∃ any, endsNoLine any = true ∧ uri = str "/index" ++ [any] ++ str "html" ∧
        groups = [uri.drop 1] := by
  simp only [indexPattern, matches_seq, matches_text, matches_optional, matches_group, matches_char]
  constructor
  · rintro ⟨_, _, _, _, rfl, rfl, ⟨rfl, rfl⟩,
      ⟨_, rfl, _, _, _, _, rfl, rfl, ⟨rfl, rfl⟩, _, _, _, _, rfl, rfl, ⟨any, rfl, line, rfl⟩, rfl, rfl⟩ |
        ⟨rfl, rfl⟩⟩
    · exact .inr ⟨any, line, rfl, rfl⟩
    · exact .inl ⟨rfl, rfl⟩
  · rintro (⟨rfl, rfl⟩ | ⟨any, line, rfl, rfl⟩)
    · exact ⟨str "/", [], [], [[]], rfl, rfl, ⟨rfl, rfl⟩, .inr ⟨rfl, rfl⟩⟩
    · exact ⟨str "/", _, [], _, rfl, rfl, ⟨rfl, rfl⟩, .inl ⟨[], rfl, str "index", _, [], [], rfl, rfl,
        ⟨rfl, rfl⟩, [any], str "html", [], [], rfl, rfl, ⟨any, rfl, line, rfl⟩, rfl, rfl⟩⟩

theorem index_finds : Finds indexRegex indexPattern := by
  intro uri sm
  simp only [matches_indexPattern, indexRegex]
  constructor
  · intro found
    split at found
    · rename_i root
      exact ⟨[[]], .inl ⟨root, rfl⟩, (Option.some.inj found).symm⟩
    · split at found
      · rename_i fits
        refine ⟨[uri.drop 1], .inr ⟨_, ?_, fits.1, rfl⟩, (Option.some.inj found).symm⟩
        simpa [endsNoLine] using fits.2
      · contradiction
  · rintro ⟨groups, ⟨rfl, rfl⟩ | ⟨any, line, rfl, rfl⟩, rfl⟩
    · rfl
    · have sixth : (str "/index" ++ [any] ++ str "html").getD 6 0 = any := rfl
      have other : str "/index" ++ [any] ++ str "html" ≠ str "/" := by
        intro same
        have length : 11 = 1 := congrArg List.length same
        contradiction
      rw [if_neg other, sixth]
      exact if_pos ⟨rfl, by simpa [endsNoLine] using line⟩

theorem create_finds : Finds createRegex createPattern := by
  intro uri sm
  simp only [createPattern, matches_text, createRegex]
  constructor
  · intro found
    split at found
    · rename_i same
      exact ⟨[], ⟨same, rfl⟩, (Option.some.inj found).symm⟩
    · contradiction
  · rintro ⟨_, ⟨same, rfl⟩, rfl⟩
    exact if_pos same

theorem matches_streamPattern {action uri : Bytes} {groups : List Bytes} :
    (streamPattern action).Matches uri groups ↔ ∃ streamId, IsStreamId streamId ∧
      uri = str "/stream/" ++ streamId ++ str "/" ++ action ∧ groups = [streamId] := by
  simp only [streamPattern, matches_seq, matches_text, matches_group, matches_plus_char]
  constructor
  · rintro ⟨_, _, _, _, rfl, rfl, ⟨rfl, rfl⟩, streamId, _, _, _, rfl, rfl,
      ⟨_, rfl, some_left, alphanum, rfl⟩, rfl, rfl⟩
    exact ⟨streamId, ⟨some_left, alphanum⟩, by simp only [List.append_assoc], rfl⟩
  · rintro ⟨streamId, ⟨some_left, alphanum⟩, rfl, rfl⟩
    exact ⟨str "/stream/", _, [], [streamId], by simp only [List.append_assoc], rfl, ⟨rfl, rfl⟩,
      streamId, _, [streamId], [], rfl, rfl, ⟨[], rfl, some_left, alphanum, rfl⟩, rfl, rfl⟩

theorem stream_finds (action : Action) : Finds (streamRegex action.text) (streamPattern action.text) := by
  intro uri sm
  simp only [matches_streamPattern]
  constructor
  · intro found
    obtain ⟨streamId, isId, same, rfl⟩ := eq_of_streamRegex found
    exact ⟨[streamId], ⟨streamId, isId, same, rfl⟩, rfl⟩
  · rintro ⟨_, ⟨streamId, isId, rfl, rfl⟩, rfl⟩
    exact streamRegex_streamUri isId action

/-- Each entry has its method, and its regex finds the matches of its pattern. -/
theorem requestMap_patterns (parse : Bytes → Except Exn Json) (floatText : Rat → Bytes)
    (outside : Outside) :
    List.Forall₂ (fun descr pattern => descr.method = pattern.1 ∧ Finds descr.regex pattern.2)
      (requestMap (c := c) parse floatText outside) patterns :=
  .cons ⟨rfl, index_finds⟩ (.cons ⟨rfl, create_finds⟩ (.cons ⟨rfl, stream_finds .append⟩
    (.cons ⟨rfl, stream_finds .advance⟩ (.cons ⟨rfl, stream_finds .destroy⟩ .nil))))

end Patterns

section Order

variable {σ : Type} {hm : HttpMessage}

def RequestMapEntry.Fits (descr : RequestMapEntry σ) (hm : HttpMessage) : Prop :=
  descr.method = hm.method ∧ ∃ sm, descr.regex hm.uri = some sm

theorem suitable_unfit {descr : RequestMapEntry σ} (unfit : ¬ descr.Fits hm)
    (requestMap : List (RequestMapEntry σ)) :
    suitable hm (descr :: requestMap) = suitable hm requestMap := by
  refine suitable_skip (fun method => ?_) requestMap
  by_contra some_found
  exact unfit ⟨method, Option.ne_none_iff_exists'.mp some_found⟩

theorem suitable_eq_none {requestMap : List (RequestMapEntry σ)} :
    suitable hm requestMap = none ↔ ∀ descr ∈ requestMap, ¬ descr.Fits hm := by
  induction requestMap with
  | nil => simp [suitable]
  | cons descr requestMap ih =>
    rw [List.forall_mem_cons]
    by_cases fits : descr.Fits hm
    · obtain ⟨method, sm, found⟩ := fits
      rw [suitable_first method found]
      exact ⟨fun none => by contradiction, fun none => absurd ⟨method, sm, found⟩ none.1⟩
    · rw [suitable_unfit fits, ih, and_iff_right fits]

def Single (hm : HttpMessage) (requestMap : List (RequestMapEntry σ)) : Prop :=
  requestMap.Pairwise fun descr other => ¬ (descr.Fits hm ∧ other.Fits hm)

/-- When at most one entry fits, the order in which they are tried does not matter. -/
theorem suitable_perm {requestMap requestMap' : List (RequestMapEntry σ)}
    (perm : requestMap'.Perm requestMap) (single : Single hm requestMap') :
    suitable hm requestMap' = suitable hm requestMap := by
  induction perm with
  | nil => rfl
  | cons descr perm ih =>
    obtain ⟨_, later⟩ := List.pairwise_cons.mp single
    by_cases fits : descr.Fits hm
    · obtain ⟨method, sm, found⟩ := fits
      rw [suitable_first method found, suitable_first method found]
    · rw [suitable_unfit fits, suitable_unfit fits, ih later]
  | swap descr other requestMap =>
    obtain ⟨apart, _⟩ := List.pairwise_cons.mp single
    by_cases fits : other.Fits hm
    · have unfit : ¬ descr.Fits hm := fun fits' => apart descr List.mem_cons_self ⟨fits, fits'⟩
      obtain ⟨method, sm, found⟩ := fits
      rw [suitable_unfit unfit, suitable_first method found, suitable_first method found]
    · rw [suitable_unfit fits]
      by_cases fits' : descr.Fits hm
      · obtain ⟨method, sm, found⟩ := fits'
        rw [suitable_first method found, suitable_first method found]
      · rw [suitable_unfit fits', suitable_unfit fits', suitable_unfit fits]
  | trans first _ ih ih' =>
    have symmetric : ∀ {descr other : RequestMapEntry σ},
        ¬ (descr.Fits hm ∧ other.Fits hm) → ¬ (other.Fits hm ∧ descr.Fits hm) :=
      fun apart both => apart both.symm
    rw [ih single, ih' (first.pairwise single symmetric)]

end Order

section Calls

variable {σ : Type}

/-- The same entry, which also notes that its handler is run, and for which request. -/
def RequestMapEntry.noting (descr : RequestMapEntry σ) :
    RequestMapEntry (σ × List (RequestMapEntry σ × Request)) where
  method := descr.method
  regex := descr.regex
  handler := fun request ((st, noted), res) =>
    (descr.handler request (st, res)).map fun (st, res) => ((st, noted ++ [(descr, request)]), res)

/-- The handlers that are run for a request. -/
def calls (hm : HttpMessage) (requestMap : List (RequestMapEntry σ)) :
    List (RequestMapEntry σ × Request) :=
  (suitable hm requestMap).toList.map fun (descr, sm) => (descr, ⟨hm.uri, hm.body, sm⟩)

theorem suitable_noting (hm : HttpMessage) (requestMap : List (RequestMapEntry σ)) :
    suitable hm (requestMap.map RequestMapEntry.noting) =
      (suitable hm requestMap).map fun (descr, sm) => (descr.noting, sm) := by
  induction requestMap with
  | nil => rfl
  | cons descr requestMap ih =>
    rw [List.map_cons, suitable, suitable, ih, RequestMapEntry.noting]
    split
    · cases descr.regex hm.uri <;> rfl
    · rfl

/-- The event handler runs these handlers, and noting them changes nothing. -/
theorem eventHandler_noting (requestMap : List (RequestMapEntry σ)) (st : σ) (nc : Connection)
    (hm : HttpMessage) :
    eventHandler (requestMap.map RequestMapEntry.noting) (st, []) nc (.httpRequest hm) =
      (eventHandler requestMap st nc (.httpRequest hm)).map fun (st, nc) =>
        ((st, calls hm requestMap), nc) := by
  simp only [eventHandler, calls, suitable_noting]
  cases suitable hm requestMap with
  | none =>
    simp only [Option.map_none, Imperative.Outcome.map_map]
    rfl
  | some fit =>
    obtain ⟨descr, sm⟩ := fit
    simp only [Option.map_some, RequestMapEntry.noting]
    cases descr.handler ⟨hm.uri, hm.body, sm⟩ (st, .create nc) with
    | done s => rfl
    | thrown e s =>
      simp only [Imperative.Outcome.thrown_map, Imperative.Outcome.map_map]
      rfl
    | running => rfl

theorem calls_length (hm : HttpMessage) (requestMap : List (RequestMapEntry σ)) :
    (calls hm requestMap).length ≤ 1 := by
  unfold calls
  cases suitable hm requestMap <;> simp

theorem calls_eq_nil {hm : HttpMessage} {requestMap : List (RequestMapEntry σ)} :
    calls hm requestMap = [] ↔ ∀ descr ∈ requestMap, ¬ descr.Fits hm := by
  rw [← suitable_eq_none, calls]
  cases suitable hm requestMap <;> simp

theorem mem_calls {hm : HttpMessage} {requestMap : List (RequestMapEntry σ)}
    {descr : RequestMapEntry σ} {request : Request} :
    (descr, request) ∈ calls hm requestMap ↔
      ∃ sm, suitable hm requestMap = some (descr, sm) ∧ request = ⟨hm.uri, hm.body, sm⟩ := by
  unfold calls
  cases suitable hm requestMap with
  | none => simp
  | some fit =>
    obtain ⟨other, sm⟩ := fit
    simp only [Option.toList_some, List.map_cons, List.map_nil, List.mem_singleton, Prod.mk.injEq,
      Option.some.injEq]
    constructor
    · rintro ⟨rfl, same⟩
      exact ⟨sm, ⟨rfl, rfl⟩, same⟩
    · rintro ⟨_, ⟨rfl, rfl⟩, same⟩
      exact ⟨rfl, same⟩

end Calls

section Languages

variable (parse : Bytes → Except Exn Json) (floatText : Rat → Bytes) (outside : Outside)
  {hm : HttpMessage}

theorem createRegex_eq_some {uri : Bytes} {sm : List Bytes} :
    createRegex uri = some sm ↔ uri = str "/stream/create" ∧ sm = [uri] := by
  rw [create_finds, createPattern]
  simp only [matches_text]
  constructor
  · rintro ⟨_, ⟨same, rfl⟩, rfl⟩
    exact ⟨same, rfl⟩
  · rintro ⟨same, rfl⟩
    exact ⟨[], ⟨same, rfl⟩, rfl⟩

theorem streamRegex_eq_some {action : Action} {uri : Bytes} {sm : List Bytes} :
    streamRegex action.text uri = some sm ↔
      ∃ streamId, IsStreamId streamId ∧ uri = streamUri streamId action ∧ sm = [uri, streamId] := by
  constructor
  · exact eq_of_streamRegex
  · rintro ⟨streamId, isId, rfl, rfl⟩
    exact streamRegex_streamUri isId action

theorem entry_fits {media : Media} {action : Action} :
    (action.entry (c := c) parse floatText media).Fits hm ↔
      ∃ streamId, IsStreamId streamId ∧ hm.Asks streamId action := by
  constructor
  · rintro ⟨method, sm, found⟩
    obtain ⟨streamId, isId, uri, _⟩ := eq_of_streamRegex found
    exact ⟨streamId, isId, method.symm, uri⟩
  · rintro ⟨streamId, isId, post, uri⟩
    exact ⟨post.symm, _, streamRegex_eq_some.mpr ⟨streamId, isId, uri, rfl⟩⟩

theorem requestMap_single (hm : HttpMessage) :
    Single hm (requestMap (c := c) parse floatText outside) := by
  have get_post : ∀ {descr other : RequestMapEntry (Streams c)}, descr.method = str "GET" →
      other.method = str "POST" → ¬ (descr.Fits hm ∧ other.Fits hm) :=
    fun get post both => get_ne_post (get.symm.trans (both.1.1.trans (both.2.1.symm.trans post)))
  rw [requestMap_eq, Single, List.pairwise_cons, List.pairwise_cons, List.pairwise_map]
  refine ⟨?_, ?_, ?_⟩
  · intro other member
    rcases List.mem_cons.mp member with rfl | later
    · exact get_post rfl rfl
    · obtain ⟨action, _, rfl⟩ := List.mem_map.mp later
      exact get_post rfl rfl
  · intro other later
    obtain ⟨action, _, rfl⟩ := List.mem_map.mp later
    rintro ⟨⟨_, sm, found⟩, fits⟩
    obtain ⟨streamId, _, _, uri⟩ := (entry_fits parse floatText).mp fits
    exact streamUri_ne_create streamId action (uri.symm.trans (createRegex_eq_some.mp found).1)
  · have distinct : [Action.append, .advance, .destroy].Pairwise (· ≠ ·) := by decide
    refine distinct.imp fun {action other} different => ?_
    rintro ⟨fits, fits'⟩
    obtain ⟨_, _, _, uri⟩ := (entry_fits parse floatText).mp fits
    obtain ⟨_, _, _, uri'⟩ := (entry_fits parse floatText).mp fits'
    exact different (streamUri_injective (uri.symm.trans uri')).2

theorem suitable_iff {descr : RequestMapEntry (Streams c)} {sm : List Bytes}
    (member : descr ∈ requestMap (c := c) parse floatText outside) :
    suitable hm (requestMap (c := c) parse floatText outside) = some (descr, sm) ↔
      descr.method = hm.method ∧ descr.regex hm.uri = some sm := by
  constructor
  · exact fun found => (fits_of_suitable found).2
  · rintro ⟨method, found⟩
    obtain ⟨before, after, split⟩ := List.append_of_mem member
    have front : (descr :: (before ++ after)).Perm (requestMap (c := c) parse floatText outside) := by
      rw [split]
      exact List.perm_middle.symm
    rw [suitable_perm front.symm (requestMap_single parse floatText outside hm)]
    exact suitable_first method found _

end Languages

section NotFound

/-- The reply of the event handler itself. -/
def NotFound (hm : HttpMessage) (sent : List Sent) : Prop :=
  answerError [] 404 (str "Requested resource \"" ++ hm.uri ++ str "\" not found for method " ++
    hm.method) = .done sent

theorem notFound_iff {hm : HttpMessage} {sent : List Sent} :
    NotFound hm sent ↔ sent = (notRouted hm).sent := by
  have responds := (notRouted hm).respond_eq []
  rw [notRouted, respond_error, List.nil_append] at responds
  rw [NotFound, responds, notRouted]
  constructor
  · intro same
    cases same
    rfl
  · rintro rfl
    rfl

theorem NotFound.status {hm : HttpMessage} {sent : List Sent} (notFound : NotFound hm sent) :
    status sent = some 404 := by
  rw [notFound_iff] at notFound
  rw [notFound, notRouted, error_sent]
  exact (reply_sent _ _ _).1

theorem unknown_not_notFound (hm : HttpMessage) (streamId : Bytes) :
    ¬ NotFound hm (⟨[.error 404 (streamNotFound streamId)], none⟩ : Script).sent := by
  intro notFound
  rw [notFound_iff, notRouted, error_sent, error_sent] at notFound
  have bodies := congrArg body notFound
  rw [(reply_sent _ _ _).2.2, (reply_sent _ _ _).2.2, replyText_eq, replyText_eq] at bodies
  simp only [List.append_assoc, List.append_cancel_left_eq] at bodies
  have letters : (83 : UInt8) = 82 := (List.cons.inj bodies).1
  contradiction

variable {parse : Bytes → Except Exn Json} {floatText : Rat → Bytes} {media : Media}
  {streamId body : Bytes} {action : Action} {entry entry' : Option (Stream c)} {script : Script}

theorem Handles.not_notFound
    (handles : Handles parse floatText media streamId body action entry script entry')
    (hm : HttpMessage) : ¬ NotFound hm script.sent := by
  have other : ∀ {c : Int}, status script.sent = some c → c ≠ 404 →
      ¬ NotFound hm script.sent :=
    fun answers different notFound =>
      different (Option.some.inj (answers.symm.trans notFound.status))
  cases handles with
  | unknown action => exact unknown_not_notFound hm streamId
  | unparsed malformed =>
    refine other (c := 500) ?_ (by decide)
    rw [throws_sent, error_sent]
    exact (reply_sent _ _ _).1
  | incomplete parsed missing =>
    refine other (c := 400) ?_ (by decide)
    rw [error_sent]
    exact (reply_sent _ _ _).1
  | untyped parsed found typed =>
    refine other (c := 500) ?_ (by decide)
    rw [throws_sent, error_sent]
    exact (reply_sent _ _ _).1
  | appends parsed found typed =>
    refine other (c := 200) ?_ (by decide)
    rw [ok_sent]
    exact (reply_sent _ _ _).1
  | returns done => exact other (header_status _ _ _ _) (by decide)
  | throws thrown => exact other (header_status _ _ _ _) (by decide)
  | erases =>
    refine other (c := 200) ?_ (by decide)
    rw [ok_sent]
    exact (reply_sent _ _ _).1

end NotFound

section Served

variable (parse : Bytes → Except Exn Json) (floatText : Rat → Bytes) {streams : Streams c}

theorem served_not_found (ready : streams.Ready) (a : Arrival) :
    ∃ streams' sent, serve parse floatText streams a = some (streams', sent) ∧
      (NotFound a.hm sent ↔
        ∀ descr ∈ requestMap (c := c) parse floatText a.outside, ¬ descr.Fits a.hm) := by
  have fitting : ∀ {descr : RequestMapEntry (Streams c)} {sm : List Bytes},
      suitable a.hm (requestMap parse floatText a.outside) = some (descr, sm) →
      ¬ ∀ descr ∈ requestMap (c := c) parse floatText a.outside, ¬ descr.Fits a.hm :=
    fun found unfit => absurd (found.symm.trans (suitable_eq_none.mpr unfit)) (by simp)
  have answered : ∀ {code : Int} {sent : List Sent}, status sent = some code → code ≠ 404 →
      ¬ NotFound a.hm sent :=
    fun answers different notFound =>
      different (Option.some.inj (answers.symm.trans notFound.status))
  rcases suitable_cases (c := c) parse floatText a.outside a.hm with
    nothing | ⟨sm, get, found⟩ | creates | ⟨streamId, action, isId, asks⟩
  · exact ⟨_, _, (answers_notRouted nothing).serve,
      iff_of_true (notFound_iff.mpr rfl) (suitable_eq_none.mp nothing)⟩
  · obtain ⟨ops, piped⟩ := genericPipe_ends pipeOps a.outside.page []
    exact ⟨_, _, (answers_follows found (index_follows piped)).serve,
      iff_of_false (answered (header_status _ _ _ _) (by decide)) (fitting found)⟩
  · exact ⟨_, _, (answers_creates creates).serve,
      iff_of_false (answered (header_status _ _ _ _) (by decide))
        (fitting (suitable_creates parse floatText a.outside creates))⟩
  · obtain ⟨script, entry', handles, _⟩ := handles_total parse floatText a.outside.media streamId
      a.hm.body action (ready streamId)
    exact ⟨_, _, (answers_asks isId asks handles).serve,
      iff_of_false (handles.not_notFound a.hm)
        (fitting (suitable_asks parse floatText a.outside isId asks))⟩

end Served

section Languages

variable (parse : Bytes → Except Exn Json) (floatText : Rat → Bytes) (outside : Outside)
  {hm : HttpMessage}

theorem suitable_create_iff {sm : List Bytes} :
    suitable hm (requestMap (c := c) parse floatText outside) =
        some (⟨str "POST", createRegex, handleStreamCreate outside.drawn.text⟩, sm) ↔
      hm.Creates ∧ sm = [hm.uri] := by
  rw [suitable_iff parse floatText outside (by simp [requestMap_eq])]
  constructor
  · rintro ⟨post, found⟩
    obtain ⟨uri, same⟩ := createRegex_eq_some.mp found
    exact ⟨⟨post.symm, uri⟩, same⟩
  · rintro ⟨⟨post, uri⟩, rfl⟩
    exact ⟨post.symm, createRegex_eq_some.mpr ⟨uri, rfl⟩⟩

theorem suitable_action_iff {action : Action} {sm : List Bytes} :
    suitable hm (requestMap (c := c) parse floatText outside) =
        some (action.entry parse floatText outside.media, sm) ↔
      ∃! streamId, IsStreamId streamId ∧ hm.Asks streamId action ∧ sm = [hm.uri, streamId] := by
  have member : action.entry parse floatText outside.media ∈
      requestMap (c := c) parse floatText outside := by
    rw [requestMap_eq]
    exact List.mem_cons_of_mem _ (List.mem_cons_of_mem _
      (List.mem_map_of_mem (by cases action <;> simp)))
  rw [suitable_iff parse floatText outside member]
  constructor
  · rintro ⟨post, found⟩
    obtain ⟨streamId, isId, uri, same⟩ := streamRegex_eq_some.mp found
    refine ⟨streamId, ⟨isId, ⟨post.symm, uri⟩, same⟩, ?_⟩
    rintro other ⟨_, ⟨_, uri'⟩, _⟩
    exact (streamUri_injective (uri'.symm.trans uri)).1
  · rintro ⟨streamId, ⟨isId, ⟨post, uri⟩, same⟩, _⟩
    exact ⟨post.symm, streamRegex_eq_some.mpr ⟨streamId, isId, uri, same⟩⟩

end Languages

/-- For any method and uri: the entries of the map, which have the regexes of `patterns`, have
no request in common, so that their order does not matter. The event handler runs one handler at
most: `create` for one uri, and an action for the uris with an id, which is the only one that fits
and the second of the matches. It replies itself to the other requests, and only to them. -/
theorem routes_unambiguous (c : Codec) (parse : Bytes → Except Exn Json) (floatText : Rat → Bytes)
    (outside : Outside) (hm : HttpMessage) :
    List.Forall₂ (fun descr pattern => descr.method = pattern.1 ∧ Finds descr.regex pattern.2)
      (requestMap (c := c) parse floatText outside) patterns ∧
    Single hm (requestMap (c := c) parse floatText outside) ∧
    (∀ requestMap', requestMap'.Perm (requestMap (c := c) parse floatText outside) →
      suitable hm requestMap' = suitable hm (requestMap parse floatText outside)) ∧
    (∀ sm, suitable hm (requestMap (c := c) parse floatText outside) =
        some (⟨str "POST", createRegex, handleStreamCreate outside.drawn.text⟩, sm) ↔
      hm.Creates ∧ sm = [hm.uri]) ∧
    (∀ action sm, suitable hm (requestMap (c := c) parse floatText outside) =
        some (action.entry parse floatText outside.media, sm) ↔
      ∃! streamId, IsStreamId streamId ∧ hm.Asks streamId action ∧ sm = [hm.uri, streamId]) ∧
    (∃ runs : List (RequestMapEntry (Streams c) × Request),
      (∀ st nc, eventHandler ((requestMap parse floatText outside).map RequestMapEntry.noting)
          (st, []) nc (.httpRequest hm) =
        (eventHandler (requestMap parse floatText outside) st nc (.httpRequest hm)).map
          fun (st, nc) => ((st, runs), nc)) ∧
      runs.length ≤ 1 ∧
      (∀ request, (⟨str "POST", createRegex, handleStreamCreate outside.drawn.text⟩, request) ∈ runs ↔
        hm.Creates ∧ request = ⟨hm.uri, hm.body, [hm.uri]⟩) ∧
      (∀ action request, (action.entry parse floatText outside.media, request) ∈ runs ↔
        ∃! streamId, IsStreamId streamId ∧ hm.Asks streamId action ∧
          request = ⟨hm.uri, hm.body, [hm.uri, streamId]⟩) ∧
      (runs = [] ↔ ∀ descr ∈ requestMap (c := c) parse floatText outside, ¬ descr.Fits hm)) ∧
    ∀ before (streams : Streams c) sents,
      Run.run (serve parse floatText) noStreams before = some (streams, sents) →
      ∃ streams' sent, serve parse floatText streams ⟨hm, outside⟩ = some (streams', sent) ∧
        (NotFound hm sent ↔
          ∀ descr ∈ requestMap (c := c) parse floatText outside, ¬ descr.Fits hm) := by
  have single := requestMap_single (c := c) parse floatText outside hm
  refine ⟨requestMap_patterns parse floatText outside, single, fun requestMap' perm => ?_,
    fun sm => suitable_create_iff parse floatText outside,
    fun action sm => suitable_action_iff parse floatText outside,
    ⟨calls hm (requestMap parse floatText outside), fun st nc => eventHandler_noting _ st nc hm,
      calls_length _ _, fun request => ?_, fun action request => ?_, calls_eq_nil⟩,
    fun before streams sents reached => ?_⟩
  · exact (suitable_perm perm.symm single).symm
  · simp only [mem_calls, suitable_create_iff]
    constructor
    · rintro ⟨_, ⟨creates, rfl⟩, same⟩
      exact ⟨creates, same⟩
    · rintro ⟨creates, same⟩
      exact ⟨_, ⟨creates, rfl⟩, same⟩
  · simp only [mem_calls, suitable_action_iff]
    constructor
    · rintro ⟨_, ⟨streamId, ⟨isId, asks, rfl⟩, _⟩, same⟩
      exact ⟨streamId, ⟨isId, asks, same⟩, fun other fits =>
        (streamUri_injective (fits.2.1.2.symm.trans asks.2)).1⟩
    · rintro ⟨streamId, ⟨isId, asks, same⟩, _⟩
      exact ⟨_, ⟨streamId, ⟨isId, asks, rfl⟩, fun other fits =>
        (streamUri_injective (fits.2.1.2.symm.trans asks.2)).1⟩, same⟩
  · exact served_not_found parse floatText (ready_of_run reached) ⟨hm, outside⟩

end HttpAudioServer
