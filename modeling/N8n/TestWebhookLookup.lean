/-
Finding a test webhook.

A test webhook is registered under a key of its method and its path, or, with a webhook id,
of the id and the number of its segments.  A request is looked up with the whole path, and
then with its first segment as id; what is found must have its static segments in the
request, in any order.

* `segments_intercalate`, `segments_afterFirstSlash` — the segments of a path that is put
  together or cut;
* `hasParam_eq` — a colon at the front or after a slash is a segment that is a parameter.
-/
import N8n.DirectedGraph
import N8n.TestWebhooks
import Mathlib.Data.List.Infix

namespace N8n

namespace PathPattern

theorem segments_intercalate {parts : List String} (h : ∀ s ∈ parts, '/' ∉ s.toList)
    (hne : parts ≠ []) : segments ("/".intercalate parts) = parts := by
  have hslash : "/".toList = ['/'] := rfl
  rw [segments, String.toList_intercalate, hslash, List.splitOn_intercalate '/', List.map_map]
  · exact (List.map_congr_left fun s _ => String.ofList_toList).trans (List.map_id parts)
  · intro chars hchars
    obtain ⟨s, hs, rfl⟩ := List.mem_map.mp hchars
    exact h s hs
  · exact fun hnil => hne (List.map_eq_nil_iff.mp hnil)

theorem intercalate_segments (path : String) : "/".intercalate (segments path) = path := by
  have hslash : "/".toList = ['/'] := rfl
  have htext : (segments path).map String.toList = path.toList.splitOn '/' := by
    rw [segments, List.map_map]
    exact (List.map_congr_left fun l _ => String.toList_ofList).trans (List.map_id _)
  rw [← String.toList_inj, String.toList_intercalate, hslash, htext, List.intercalate_splitOn]

theorem segments_injective : Function.Injective segments :=
  Function.LeftInverse.injective intercalate_segments

variable {path : String}

theorem segments_of_not_mem (h : '/' ∉ path.toList) : segments path = [path] := by
  rw [segments, List.splitOn_eq_singleton h, List.map_singleton, String.ofList_toList]

theorem exists_beforeFirstSlash (h : '/' ∈ path.toList) :
    ∃ front, '/' ∉ front.toList ∧ path = front ++ "/" ++ afterFirstSlash path := by
  obtain ⟨front, rest, hpath, hfront⟩ := List.eq_append_cons_of_mem h
  refine ⟨String.ofList front, by rwa [String.toList_ofList], ?_⟩
  have hdrop : path.toList.dropWhile (· ≠ '/') = '/' :: rest := by
    rw [hpath, List.dropWhile_append_of_pos]
    · rfl
    · intro c hc
      exact decide_eq_true fun heq => hfront (heq ▸ hc)
  rw [afterFirstSlash, if_pos h, hdrop, List.drop_one, List.tail_cons, ← String.toList_inj,
    String.toList_append, String.toList_append, String.toList_ofList, hpath, List.append_assoc]
  exact congrArg (front ++ '/' :: ·) String.toList_ofList.symm

theorem segments_afterFirstSlash (h : '/' ∈ path.toList) :
    segments (afterFirstSlash path) = (segments path).tail := by
  obtain ⟨front, hfront, hpath⟩ := exists_beforeFirstSlash h
  conv_rhs => rw [hpath, segments_join hfront, List.tail_cons]

theorem afterFirstSlash_of_not_mem (h : '/' ∉ path.toList) : afterFirstSlash path = path := if_neg h

theorem mem_of_mem_statics {pattern : List String} {s : String} (h : s ∈ statics pattern) :
    s ∈ pattern := List.mem_of_mem_filter h

theorem one_le_length_segments (path : String) : 1 ≤ (segments path).length :=
  List.length_pos_iff.mpr (segments_ne_nil path)

def hasParam (path : String) : Bool :=
  path.toList.head? = some ':' || ['/', ':'] <:+: path.toList

theorem exists_splitOn (l : List Char) : ∃ first parts, l.splitOn '/' = first :: parts ∧
    (first.head? = some ':' ↔ l.head? = some ':') ∧
      ((∃ part ∈ parts, part.head? = some ':') ↔ ['/', ':'] <:+: l) := by
  induction l with
  | nil => exact ⟨[], [], rfl, Iff.rfl, by simp⟩
  | cons c l ih =>
    obtain ⟨first, parts, hsplit, hfirst, hparts⟩ := ih
    rw [List.splitOn_cons_eq_if_modifyHead, hsplit, List.infix_cons_iff]
    by_cases hc : c = '/'
    · have hfront' : ['/', ':'] <+: '/' :: l ↔ l.head? = some ':' := by
        rw [List.cons_prefix_cons]
        cases l <;> simp [eq_comm]
      subst hc
      refine ⟨[], first :: parts, by simp, by simp, ?_⟩
      rw [hfront', ← hfirst, ← hparts]
      simp
    · have hfront' : ¬ ['/', ':'] <+: c :: l := by
        rw [List.cons_prefix_cons]
        exact fun h => hc h.1.symm
      refine ⟨c :: first, parts, by simp [hc], by simp, ?_⟩
      rw [hparts]
      exact (or_iff_right hfront').symm

theorem hasParam_eq (path : String) : hasParam path = (segments path).any isParam := by
  obtain ⟨first, parts, hsplit, hfirst, hparts⟩ := exists_splitOn path.toList
  rw [Bool.eq_iff_iff, hasParam, Bool.or_eq_true, decide_eq_true_iff, decide_eq_true_iff,
    ← hfirst, ← hparts, segments, hsplit]
  simp [isParam]

theorem hasParam_iff : hasParam path = true ↔ ∃ s ∈ segments path, isParam s = true := by
  rw [hasParam_eq, List.any_eq_true]

theorem isParam_of_hasParam_false {path s : String} (h : hasParam path = false)
    (hs : s ∈ segments path) : isParam s = false := by
  rw [hasParam_eq, List.any_eq_false] at h
  exact Bool.eq_false_iff.mpr (h s hs)

theorem colon_mem_of_hasParam (h : hasParam path = true) : ':' ∈ path.toList := by
  rw [hasParam, Bool.or_eq_true, decide_eq_true_iff, decide_eq_true_iff] at h
  rcases h with hhead | hinfix
  · exact List.mem_of_mem_head? hhead
  · exact hinfix.subset (by simp)

end PathPattern

open PathPattern LiveWebhooks

theorem append_cons_inj_of_not_mem_right {α : Type*} [DecidableEq α] {a : α} {l l' r r' : List α}
    (hr : a ∉ r) (hr' : a ∉ r') (h : l ++ a :: r = l' ++ a :: r') : l = l' ∧ r = r' := by
  have hflip : ∀ front back : List α,
      (front ++ a :: back).reverse = back.reverse ++ a :: front.reverse := by simp
  have hparts := congrArg (fun whole => whole.reverse.splitOn a) h
  simp only [hflip] at hparts
  rw [List.splitOn_append_cons_self_of_not_mem (fun hmem => hr (List.mem_reverse.mp hmem)),
    List.splitOn_append_cons_self_of_not_mem (fun hmem => hr' (List.mem_reverse.mp hmem)),
    List.cons.injEq] at hparts
  have hback : r = r' := List.reverse_injective hparts.1
  subst hback
  exact ⟨List.append_cancel_right h, rfl⟩

theorem bar_not_mem_toString (n : ℕ) : '|' ∉ (toString n).toList := by
  rw [toList_toString]
  intro h
  exact absurd (Nat.isDigit_of_mem_toDigits (by decide) (by decide) h) (by decide)

theorem slash_not_mem_toString (n : ℕ) : '/' ∉ (toString n).toList := by
  rw [toList_toString]
  intro h
  exact absurd (Nat.isDigit_of_mem_toDigits (by decide) (by decide) h) (by decide)

theorem toList_numbered (webhookId : String) (n : ℕ) :
    (webhookId ++ "|" ++ toString n).toList = webhookId.toList ++ '|' :: (toString n).toList := by
  rw [String.toList_append, String.toList_append, List.append_assoc]
  rfl

theorem numbered_inj {webhookId webhookId' : String} {n n' : ℕ} :
    webhookId ++ "|" ++ toString n = webhookId' ++ "|" ++ toString n'
      ↔ webhookId = webhookId' ∧ n = n' := by
  constructor
  · intro h
    have hchars := congrArg String.toList h
    rw [toList_numbered, toList_numbered] at hchars
    obtain ⟨hid, hn⟩ := append_cons_inj_of_not_mem_right (bar_not_mem_toString n)
      (bar_not_mem_toString n') hchars
    exact ⟨String.toList_inj.mp hid, toString_injective (String.toList_inj.mp hn)⟩
  · rintro ⟨rfl, rfl⟩
    rfl

/-- The number of segments that a key has. -/
def keyLength (webhookId path : String) : ℕ :=
  (segments (if webhookId.toList <+: path.toList then afterFirstSlash path else path)).length

/-- What a key has after the method. -/
def keyRest (path : String) (webhookId : Option String) : String :=
  match webhookId.filter (· ≠ "") with
  | none => path
  | some webhookId => webhookId ++ "|" ++ toString (keyLength webhookId path)

theorem keyRest_none (path : String) : keyRest path none = path := rfl

theorem keyRest_empty (path : String) : keyRest path (some "") = path := rfl

theorem keyRest_some {webhookId : String} (h : webhookId ≠ "") (path : String) :
    keyRest path (some webhookId) = webhookId ++ "|" ++ toString (keyLength webhookId path) := by
  rw [keyRest, Option.filter_some, if_pos (decide_eq_true h)]

theorem toKey_eq (httpMethod : IHttpRequestMethods) (path : String) (webhookId : Option String) :
    toKey httpMethod path webhookId = httpMethod.toString ++ "|" ++ keyRest path webhookId := by
  rw [toKey, keyRest]
  cases webhookId.filter (· ≠ "") with
  | none => rfl
  | some webhookId =>
    simp only [keyLength, ← String.toList_inj, String.toList_append, List.append_assoc]

theorem toKey_inj {httpMethod httpMethod' : IHttpRequestMethods} {path path' : String}
    {webhookId webhookId' : Option String} :
    toKey httpMethod path webhookId = toKey httpMethod' path' webhookId'
      ↔ httpMethod = httpMethod' ∧ keyRest path webhookId = keyRest path' webhookId' := by
  have hbar : ∀ m : IHttpRequestMethods, '|' ∉ m.toString.toList := by
    intro m
    cases m <;> decide
  have hkey : ∀ (m : IHttpRequestMethods) (rest : String),
      (m.toString ++ "|" ++ rest).toList = m.toString.toList ++ '|' :: rest.toList := by
    intro m rest
    rw [String.toList_append, String.toList_append, List.append_assoc]
    rfl
  rw [toKey_eq, toKey_eq]
  constructor
  · intro h
    have hchars := congrArg String.toList h
    rw [hkey, hkey] at hchars
    have hparts := congrArg (List.splitOn '|') hchars
    rw [List.splitOn_append_cons_self_of_not_mem (hbar httpMethod),
      List.splitOn_append_cons_self_of_not_mem (hbar httpMethod'), List.cons.injEq] at hparts
    have hmethod : httpMethod = httpMethod' := by
      have htext := String.toList_inj.mp hparts.1
      cases httpMethod <;> cases httpMethod' <;> first | rfl | exact absurd htext (by decide)
    refine ⟨hmethod, ?_⟩
    rw [hparts.1] at hchars
    exact String.toList_inj.mp (List.cons.inj (List.append_cancel_left hchars)).2
  · rintro ⟨rfl, hrest⟩
    rw [hrest]

namespace TestWebhooks

/-- The webhook matches if all its static segments exist, or if it has none. -/
def getActiveWebhookFromRegistration (path : String) (registration : TestWebhookRegistration) :
    Option TestWebhook :=
  let pathElementsSet := segments path
  let dynamicWebhook := registration.webhook
  let staticElements := statics (segments dynamicWebhook.path)
  let allStaticExist := staticElements.all fun staticEle => staticEle ∈ pathElementsSet
  if allStaticExist ∧ staticElements.length > 0 ∨ staticElements.length = 0 then
    some dynamicWebhook
  else none

variable (registrations : Dict String TestWebhookRegistration)

def getActiveWebhook
    (httpMethod : IHttpRequestMethods) (path : String) (webhookId : Option String) :
    Option TestWebhook :=
  (registrations.get? (N8n.toKey httpMethod path webhookId)).bind
    (getActiveWebhookFromRegistration path)

/-- What `executeWebhook` finds for a request, and the parameters that it binds. -/
def executeWebhook
    (httpMethod : IHttpRequestMethods) (rawPath : String) : Option (TestWebhook × Params) :=
  let path := removeTrailingSlash rawPath
  match getActiveWebhook registrations httpMethod path none with
  | some webhook => some (webhook, .empty)
  | none =>
    let webhookId := (segments path).head?
    let others := (segments path).tail
    (getActiveWebhook registrations httpMethod ("/".intercalate others) webhookId).map
      fun webhook => (webhook, (segments webhook.path).zipIdx.foldl (fun params segment =>
        if isParam segment.1 then setParam params (paramName segment.1) others[segment.2]?
        else params) .empty)

theorem getActiveWebhookFromRegistration_eq (path : String)
    (registration : TestWebhookRegistration) :
    getActiveWebhookFromRegistration path registration
      = if ∀ s ∈ statics (segments registration.webhook.path), s ∈ segments path then
          some registration.webhook
        else none := by
  rw [getActiveWebhookFromRegistration]
  refine if_congr ?_ rfl rfl
  simp only [List.all_eq_true, decide_eq_true_eq]
  constructor
  · rintro (⟨hall, -⟩ | hnone)
    · exact hall
    · rw [List.length_eq_zero_iff.mp hnone]
      exact fun s hs => absurd hs List.not_mem_nil
  · intro hall
    exact (Nat.eq_zero_or_pos _).symm.imp_left fun hpos => ⟨hall, hpos⟩

theorem executeWebhook_eq (httpMethod : IHttpRequestMethods) (rawPath : String) :
    executeWebhook registrations httpMethod rawPath =
      ((getActiveWebhook registrations httpMethod (removeTrailingSlash rawPath) none).map
          fun webhook => (webhook, Dict.empty)).or
        ((getActiveWebhook registrations httpMethod
          ("/".intercalate (segments (removeTrailingSlash rawPath)).tail)
          (segments (removeTrailingSlash rawPath)).head?).map fun webhook =>
            (webhook, Dict.empty.setAll (bindings "__proto__" (positions (segments webhook.path)
              (segments (removeTrailingSlash rawPath)).tail)))) := by
  rw [executeWebhook]
  cases getActiveWebhook registrations httpMethod (removeTrailingSlash rawPath) none with
  | some webhook => rfl
  | none =>
    simp only [Option.map_none, Option.none_or, foldl_setParam, positions]

end TestWebhooks

end N8n
