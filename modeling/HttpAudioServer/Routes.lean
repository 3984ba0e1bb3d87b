import HttpAudioServer.Main
import Mathlib.Data.List.TakeWhile

/-! Where the requests go. A uri that names a stream and an action determines both. -/
namespace HttpAudioServer

variable {c : Codec}

inductive Action where
  | append
  | advance
  | destroy
deriving DecidableEq, Repr

namespace Action

def text : Action → Bytes
  | append => str "append"
  | advance => str "advance"
  | destroy => str "destroy"

def handler (parse : Bytes → Except Exn Json) (floatText : Rat → Bytes) (media : Media) :
    Action → RequestHandler (Streams c)
  | append => handleStreamAppend parse
  | advance => handleStreamAdvance floatText media
  | destroy => handleStreamDestroy

theorem text_ne_nil (action : Action) : action.text ≠ [] := by
  cases action <;> decide

theorem eq_of_getLast {action other : Action}
    (same : action.text.getLast? = other.text.getLast?) : action = other := by
  cases action <;> cases other <;> first | rfl | exact absurd same (by decide)

end Action

def streamUri (streamId : Bytes) (action : Action) : Bytes :=
  str "/stream/" ++ streamId ++ str "/" ++ action.text

namespace HttpMessage

def Creates (hm : HttpMessage) : Prop := hm.method = str "POST" ∧ hm.uri = str "/stream/create"

def Asks (hm : HttpMessage) (streamId : Bytes) (action : Action) : Prop :=
  hm.method = str "POST" ∧ hm.uri = streamUri streamId action

end HttpMessage

section Routes

theorem streamUri_injective {streamId other : Bytes} {action action' : Action}
    (same : streamUri streamId action = streamUri other action') :
    streamId = other ∧ action = action' := by
  have last := congrArg List.getLast? same
  rw [streamUri, streamUri, List.getLast?_append_of_ne_nil _ action.text_ne_nil,
    List.getLast?_append_of_ne_nil _ action'.text_ne_nil] at last
  cases Action.eq_of_getLast last
  exact ⟨by simpa [streamUri] using same, rfl⟩

theorem streamUri_ne_create (streamId : Bytes) (action : Action) :
    streamUri streamId action ≠ str "/stream/create" := by
  intro same
  have last := congrArg List.getLast? same
  have length := congrArg List.length same
  rw [streamUri, List.getLast?_append_of_ne_nil _ action.text_ne_nil] at last
  cases action with
  | append => exact absurd last (by decide)
  | advance =>
    have fixed : (str "/stream/").length = 8 ∧ (str "/").length = 1 ∧
        (str "advance").length = 7 ∧ (str "/stream/create").length = 14 := by decide
    simp only [streamUri, List.length_append, Action.text] at length
    omega
  | destroy => exact absurd last (by decide)

theorem takeWhile_streamUri {streamId : Bytes} (isId : IsStreamId streamId) (action : Action) :
    ((streamUri streamId action).drop 8).takeWhile isAlphanum = streamId := by
  have dropped : (streamUri streamId action).drop 8 = streamId ++ 47 :: action.text := by
    rw [streamUri, List.append_assoc, List.append_assoc]
    rfl
  rw [dropped, List.takeWhile_append_of_pos isId.2, List.takeWhile_cons_of_neg (by decide),
    List.append_nil]

theorem streamRegex_streamUri {streamId : Bytes} (isId : IsStreamId streamId) (action : Action) :
    streamRegex action.text (streamUri streamId action) =
      some [streamUri streamId action, streamId] := by
  rw [streamRegex, takeWhile_streamUri isId]
  exact if_pos ⟨isId.1, rfl⟩

/-- What matches is a request for a stream, and its id is the second of the matches. -/
theorem eq_of_streamRegex {action : Action} {uri : Bytes} {sm : List Bytes}
    (found : streamRegex action.text uri = some sm) :
    ∃ streamId, IsStreamId streamId ∧ uri = streamUri streamId action ∧ sm = [uri, streamId] := by
  simp only [streamRegex] at found
  split at found
  · rename_i fits
    refine ⟨_, ⟨fits.1, fun ch member => ?_⟩, fits.2, (Option.some.inj found).symm⟩
    exact List.mem_takeWhile_imp member
  · contradiction

theorem streamRegex_other {streamId : Bytes} {action other : Action}
    (different : ¬ (IsStreamId streamId ∧ action = other)) :
    streamRegex other.text (streamUri streamId action) = none := by
  by_contra matched
  obtain ⟨sm, found⟩ := Option.ne_none_iff_exists'.mp matched
  obtain ⟨streamId', isId, same, _⟩ := eq_of_streamRegex found
  obtain ⟨rfl, rfl⟩ := streamUri_injective same
  exact different ⟨isId, rfl⟩

section Suitable

variable {σ : Type} {hm : HttpMessage} {descr : RequestMapEntry σ} {sm : List Bytes}

theorem suitable_skip (unfit : descr.method = hm.method → descr.regex hm.uri = none)
    (requestMap : List (RequestMapEntry σ)) :
    suitable hm (descr :: requestMap) = suitable hm requestMap := by
  rw [suitable]
  split
  · rename_i same
    rw [unfit same]
  · rfl

theorem suitable_first (method : descr.method = hm.method) (found : descr.regex hm.uri = some sm)
    (requestMap : List (RequestMapEntry σ)) :
    suitable hm (descr :: requestMap) = some (descr, sm) := by
  rw [suitable, if_pos method, found]

theorem fits_of_suitable {requestMap : List (RequestMapEntry σ)}
    (found : suitable hm requestMap = some (descr, sm)) :
    descr ∈ requestMap ∧ descr.method = hm.method ∧ descr.regex hm.uri = some sm := by
  induction requestMap with
  | nil => contradiction
  | cons first later ih =>
    by_cases fits : first.method = hm.method ∧ ∃ sm, first.regex hm.uri = some sm
    · obtain ⟨method, sm', regex⟩ := fits
      rw [suitable_first method regex] at found
      cases found
      exact ⟨List.mem_cons_self, method, regex⟩
    · have unfit : first.method = hm.method → first.regex hm.uri = none := by
        intro method
        by_contra some_found
        exact fits ⟨method, Option.ne_none_iff_exists'.mp some_found⟩
      rw [suitable_skip unfit] at found
      obtain ⟨member, method, regex⟩ := ih found
      exact ⟨List.mem_cons_of_mem _ member, method, regex⟩

end Suitable

variable (parse : Bytes → Except Exn Json) (floatText : Rat → Bytes) (outside : Outside)
  {hm : HttpMessage}

def Action.entry (media : Media) (action : Action) : RequestMapEntry (Streams c) :=
  ⟨str "POST", streamRegex action.text, action.handler parse floatText media⟩

theorem requestMap_eq : requestMap (c := c) parse floatText outside =
    ⟨str "GET", indexRegex, handleIndex outside.page⟩ ::
    ⟨str "POST", createRegex, handleStreamCreate outside.drawn.text⟩ ::
    [Action.append, .advance, .destroy].map (Action.entry parse floatText outside.media) := rfl

theorem get_ne_post : str "GET" ≠ str "POST" := by decide

theorem suitable_post (post : hm.method = str "POST") :
    suitable hm (requestMap (c := c) parse floatText outside) = suitable hm
      (⟨str "POST", createRegex, handleStreamCreate outside.drawn.text⟩ ::
        [Action.append, .advance, .destroy].map (Action.entry parse floatText outside.media)) :=
  suitable_skip (fun get => absurd (get.trans post) get_ne_post) _

theorem suitable_creates (creates : hm.Creates) :
    suitable hm (requestMap (c := c) parse floatText outside) = some
      (⟨str "POST", createRegex, handleStreamCreate outside.drawn.text⟩, [hm.uri]) := by
  obtain ⟨post, uri⟩ := creates
  rw [suitable_post parse floatText outside post]
  exact suitable_first post.symm (if_pos uri) _

theorem suitable_actions {streamId : Bytes} {action : Action} (isId : IsStreamId streamId)
    (asks : hm.Asks streamId action) (actions : List Action) (member : action ∈ actions) :
    suitable hm (actions.map (Action.entry (c := c) parse floatText outside.media)) =
      some (action.entry parse floatText outside.media, [hm.uri, streamId]) := by
  obtain ⟨post, uri⟩ := asks
  induction actions with
  | nil => contradiction
  | cons other actions ih =>
    by_cases same : action = other
    · subst same
      refine suitable_first post.symm ?_ _
      rw [uri]
      exact streamRegex_streamUri isId action
    · have unfit : streamRegex other.text hm.uri = none := by
        rw [uri]
        exact streamRegex_other fun both => same both.2
      rw [List.map_cons, suitable_skip fun _ => unfit]
      exact ih ((List.mem_cons.mp member).resolve_left same)

theorem suitable_asks {streamId : Bytes} {action : Action} (isId : IsStreamId streamId)
    (asks : hm.Asks streamId action) :
    suitable hm (requestMap (c := c) parse floatText outside) =
      some (action.entry parse floatText outside.media, [hm.uri, streamId]) := by
  have create : createRegex hm.uri = none := by
    rw [asks.2]
    exact if_neg (streamUri_ne_create streamId action)
  rw [suitable_post parse floatText outside asks.1, suitable_skip fun _ => create]
  exact suitable_actions parse floatText outside isId asks _ (by cases action <;> simp)

/-- Where a request goes: to the page, to `create`, to an action on a stream, or nowhere. -/
theorem suitable_cases (hm : HttpMessage) :
    suitable hm (requestMap (c := c) parse floatText outside) = none ∨
    (∃ sm, hm.method = str "GET" ∧
      suitable hm (requestMap (c := c) parse floatText outside) =
        some (⟨str "GET", indexRegex, handleIndex outside.page⟩, sm)) ∨
    hm.Creates ∨
    ∃ streamId action, IsStreamId streamId ∧ hm.Asks streamId action := by
  cases found : suitable hm (requestMap (c := c) parse floatText outside) with
  | none => exact .inl rfl
  | some fit =>
    obtain ⟨descr, sm⟩ := fit
    obtain ⟨member, method, regex⟩ := fits_of_suitable found
    rw [requestMap_eq, List.mem_cons, List.mem_cons, List.mem_map] at member
    refine .inr ?_
    rcases member with rfl | rfl | ⟨action, _, rfl⟩
    · exact .inl ⟨sm, method.symm, rfl⟩
    · refine .inr (.inl ⟨method.symm, ?_⟩)
      by_contra other
      exact absurd ((if_neg other).symm.trans regex) (by simp)
    · obtain ⟨streamId, isId, uri, _⟩ := eq_of_streamRegex regex
      exact .inr (.inr ⟨streamId, action, isId, method.symm, uri⟩)

theorem suitable_malformed {streamId : Bytes} {action : Action} (malformed : ¬ IsStreamId streamId)
    (asks : hm.Asks streamId action) :
    suitable hm (requestMap (c := c) parse floatText outside) = none := by
  rcases suitable_cases (c := c) parse floatText outside hm with nothing | ⟨_, get, _⟩ | creates | named
  · exact nothing
  · exact absurd (get.symm.trans asks.1) get_ne_post
  · exact absurd (asks.2.symm.trans creates.2) (streamUri_ne_create streamId action)
  · obtain ⟨other, action', isId, asks'⟩ := named
    have same := streamUri_injective (asks.2.symm.trans asks'.2)
    exact absurd (same.1 ▸ isId) malformed

end Routes

end HttpAudioServer
