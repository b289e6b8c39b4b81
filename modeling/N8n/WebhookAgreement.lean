/-
When test URLs and production URLs agree.

The two lookups of a node are compared for one request, and for all of them.

* **`WebhookNode.agreement`** — all requests are served alike iff the path has a colon but
  no parameter, no leading slash and is no key; ordinary requests are for every node.
-/
import N8n.WebhookUrls

namespace N8n

open PathPattern LiveWebhooks

theorem PathPattern.eq_join {path segment : String} {others : List String}
    (h : segments path = segment :: others) (hne : others ≠ []) :
    path = segment ++ "/" ++ "/".intercalate others := by
  rw [← intercalate_segments path, h, String.intercalate_cons_of_ne_nil hne]

theorem PathPattern.eq_of_segments_singleton {path segment : String}
    (h : segments path = [segment]) : path = segment := by
  rw [← intercalate_segments path, h, String.intercalate_singleton]

theorem hasParam_of_isDynamicPath {path : String} (h : isDynamicPath path = true) :
    hasParam path = true := by
  have hrest : hasParam (afterFirstSlash path) = true := by
    rw [isDynamicPath] at h
    split at h
    · cases h
    · exact h
  by_cases hslash : '/' ∈ path.toList
  · obtain ⟨s, hs, hparam⟩ := hasParam_iff.mp hrest
    rw [segments_afterFirstSlash hslash] at hs
    exact hasParam_iff.mpr ⟨s, List.mem_of_mem_tail hs, hparam⟩
  · rwa [afterFirstSlash_of_not_mem hslash] at hrest

/-- The text of a key for an id and a number of segments. -/
def IsKey (path : String) : Prop :=
  ∃ webhookId : String, ∃ n, webhookId ≠ "" ∧ '/' ∉ webhookId.toList ∧ 1 ≤ n ∧
    path = webhookId ++ "|" ++ toString n

theorem one_le_keyLength (webhookId path : String) : 1 ≤ keyLength webhookId path :=
  one_le_length_segments _

theorem keyLength_of_not_startsWith {webhookId path : String}
    (h : ¬ webhookId.toList <+: path.toList) :
    keyLength webhookId path = (segments path).length := by
  rw [keyLength, if_neg h]

namespace WebhookNode

variable {node : WebhookNode} {path : String}

theorem storedPath_eq (h : node.fullPath.toList.head? ≠ some '/') :
    node.storedPath = node.registeredPath := by
  rw [storedPath, removeLeadingSlash_of_ne h, registeredPath]

theorem colon_mem_storedPath : ':' ∈ node.storedPath.toList ↔ ':' ∈ node.fullPath.toList := by
  rw [storedPath, mem_removeTrailingSlash (by decide)]
  by_cases h : node.fullPath.toList.head? = some '/'
  · conv_rhs => rw [← slash_append_removeLeadingSlash h, String.toList_append]
    simp
  · rw [removeLeadingSlash_of_ne h]

theorem testId_of_static (h : hasParam node.fullPath = false) : node.testId = none := by
  refine testId_of_false node (Bool.eq_false_iff.mpr fun hdynamic => ?_)
  rw [hasParam_of_isDynamicPath hdynamic] at h
  cases h

theorem finds_none_iff (h : node.testId = none) :
    node.Finds path none ↔ path = node.registeredPath := by
  rw [Finds, h, keyRest_none, keyRest_none]
  refine and_iff_left_of_imp fun hpath => ?_
  rw [hpath]
  exact fun s hs => mem_of_mem_statics hs

theorem tests_of_eq (h : node.testId = none)
    (hpath : path = node.registeredPath ∨ path = "/" ++ node.registeredPath) :
    node.Tests path := by
  rcases hpath with hpath | hpath
  · exact .inl ((finds_none_iff h).mpr hpath)
  · refine .inr ?_
    rw [hpath, segments_slash_append, List.tail_cons, List.head?_cons, intercalate_segments,
      Finds, h, keyRest_empty, keyRest_none]
    exact ⟨rfl, fun s hs => mem_of_mem_statics hs⟩

theorem tests_static_iff (h : node.testId = none) (hkey : ¬ IsKey node.registeredPath) :
    node.Tests path ↔ path = node.registeredPath ∨ path = "/" ++ node.registeredPath := by
  refine ⟨?_, tests_of_eq h⟩
  rintro (hwhole | hfirst)
  · exact .inl ((finds_none_iff h).mp hwhole)
  · obtain ⟨segment, others, hsegments⟩ := List.exists_cons_of_ne_nil (segments_ne_nil path)
    rw [hsegments, List.head?_cons, List.tail_cons, Finds, h, keyRest_none] at hfirst
    by_cases hempty : segment = ""
    · subst hempty
      rw [keyRest_empty] at hfirst
      cases others with
      | nil =>
        rw [eq_of_segments_singleton hsegments, ← hfirst.1]
        exact .inl rfl
      | cons _ _ =>
        rw [eq_join hsegments (List.cons_ne_nil _ _), hfirst.1]
        exact .inr rfl
    · rw [keyRest_some hempty] at hfirst
      have hslash : '/' ∉ segment.toList :=
        slash_not_mem path (hsegments ▸ List.mem_cons_self)
      exact absurd ⟨segment, _, hempty, hslash, one_le_keyLength _ _, hfirst.1.symm⟩ hkey

theorem serves_static_iff (h : hasParam node.fullPath = false) :
    node.Serves path ↔ path = node.storedPath ∨ path = node.uniquePath := by
  rw [Serves, storedId_of_false node h]
  refine or_congr_right (or_iff_left ?_)
  rintro ⟨hhead, -⟩
  exact head?_segments_ne_none path hhead.symm

theorem uniquePath_static (h : hasParam node.fullPath = false) :
    node.uniquePath = if ':' ∈ node.fullPath.toList then "/" ++ node.storedPath
      else node.storedPath := by
  rw [uniquePath, storedId_of_false node h]
  exact if_congr colon_mem_storedPath rfl rfl

theorem testParams_static (h : hasParam node.fullPath = false) : node.testParams path = .empty := by
  rw [testParams]
  split
  · rfl
  · have hnone : ∀ e ∈ positions (segments node.registeredPath) (segments path).tail,
        isParam e.1 = false := by
      intro e he
      obtain ⟨s, hs, rfl⟩ := List.mem_map.mp he
      rw [← hasParam_registeredPath] at h
      exact isParam_of_hasParam_false h (List.fst_mem_of_mem_zipIdx hs)
    rw [bindings_eq_nil hnone]
    rfl

variable {userId : String} {httpMethod : IHttpRequestMethods}

theorem agree_static
    (hleading : node.fullPath.toList.head? ≠ some '/') (hparam : hasParam node.fullPath = false)
    (hkey : ¬ IsKey node.registeredPath) (hslash : ':' ∈ node.fullPath.toList ∨
      removeTrailingSlash path ≠ "/" ++ node.registeredPath) :
    node.Agree userId httpMethod path := by
  rw [agree_iff, tests_static_iff (testId_of_static hparam) hkey, serves_static_iff hparam,
    uniquePath_static hparam, storedPath_eq hleading]
  refine fun _ => ⟨?_, fun _ => ?_⟩
  · by_cases hcolon : ':' ∈ node.fullPath.toList
    · rw [if_pos hcolon]
    · rw [if_neg hcolon, or_self, or_iff_left (hslash.resolve_left hcolon)]
  · rw [testParams_static hparam, storedParams, hparam]
    rfl

variable (node) in
/-- The key of the registration, without the method. -/
def key : String := keyRest node.registeredPath node.testId

theorem key_eq (hid : node.testId = some node.webhookId) : node.key
    = node.webhookId ++ "|" ++ toString (keyLength node.webhookId node.registeredPath) := by
  rw [key, hid, keyRest_some node.webhookId_ne]

theorem of_tests (hid : node.testId = some node.webhookId) (htests : node.Tests path) :
    path = node.key ∨ path = "/" ++ node.key ∨ '/' ∉ node.webhookId.toList ∧
      (segments path).head? = some node.webhookId ∧
        keyLength node.webhookId ("/".intercalate (segments path).tail)
          = keyLength node.webhookId node.registeredPath ∧
        ∀ s ∈ statics (segments node.registeredPath),
          s ∈ segments ("/".intercalate (segments path).tail) := by
  rcases htests with hwhole | hfirst
  · exact .inl hwhole.1
  · obtain ⟨segment, others, hsegments⟩ := List.exists_cons_of_ne_nil (segments_ne_nil path)
    rw [hsegments, List.head?_cons, List.tail_cons, Finds, ← key] at hfirst
    by_cases hempty : segment = ""
    · rw [hempty, keyRest_empty] at hfirst
      cases others with
      | nil =>
        have hnil : node.key = "" := hfirst.1.symm
        rw [key_eq hid] at hnil
        exact absurd (congrArg String.toList hnil) (by rw [toList_numbered]; simp)
      | cons _ _ =>
        refine .inr (.inl ?_)
        rw [eq_join hsegments (List.cons_ne_nil _ _), hfirst.1, hempty]
        rfl
    · rw [keyRest_some hempty, key_eq hid, numbered_inj] at hfirst
      obtain ⟨⟨hsegment, hlength⟩, hstatics⟩ := hfirst
      have hslash : '/' ∉ segment.toList :=
        slash_not_mem path (hsegments ▸ List.mem_cons_self)
      rw [hsegment] at hslash hlength hsegments
      rw [hsegments]
      exact .inr (.inr ⟨hslash, rfl, hlength, hstatics⟩)

variable (node path) in
/-- The request is none of the texts that only one of the lookups takes, and the id stands in
front of neither path a second time. -/
structure Plain : Prop where
  slash : '/' ∉ node.webhookId.toList
  template : path ≠ node.registeredPath
  id : path ≠ node.webhookId
  key : path ≠ node.key ∧ path ≠ "/" ++ node.key
  front : ¬ node.webhookId.toList <+: node.registeredPath.toList
  again : ¬ node.webhookId.toList <+: ("/".intercalate (segments path).tail).toList

/-- The request fits the path: the id, as many segments, and the static ones among them. -/
def FitsSomehow (node : WebhookNode) (segment : String) (others : List String) : Prop :=
  segment = node.webhookId ∧ (segments node.registeredPath).length = others.length ∧
    ∀ s ∈ statics (segments node.registeredPath), s ∈ others

variable {segment : String} {others : List String}

theorem tests_param_iff (hplain : node.Plain path)
    (hid : node.testId = some node.webhookId) (hsegments : segments path = segment :: others) :
    node.Tests path ↔ node.FitsSomehow segment others := by
  have hagain := hplain.again
  rw [hsegments, List.tail_cons] at hagain
  have hothers : segment = node.webhookId → segments ("/".intercalate others) = others := by
    intro hsegment
    refine segments_intercalate (fun s hs => slash_not_mem path
      (hsegments ▸ List.mem_cons_of_mem segment hs)) fun hnil => ?_
    rw [hnil] at hsegments
    exact hplain.id ((eq_of_segments_singleton hsegments).trans hsegment)
  constructor
  · intro htests
    obtain ⟨-, hsegment, hlength, hstatics⟩ :=
      ((of_tests hid htests).resolve_left hplain.key.1).resolve_left hplain.key.2
    rw [hsegments, List.head?_cons, Option.some_inj] at hsegment
    rw [hsegments, List.tail_cons, hothers hsegment] at hstatics
    rw [hsegments, List.tail_cons, keyLength_of_not_startsWith hagain,
      keyLength_of_not_startsWith hplain.front, hothers hsegment] at hlength
    exact ⟨hsegment, hlength.symm, hstatics⟩
  · rintro ⟨hsegment, hlength, hstatics⟩
    refine .inr ?_
    rw [hsegments, List.head?_cons, List.tail_cons, Finds, ← key, key_eq hid, hsegment,
      keyRest_some node.webhookId_ne, keyLength_of_not_startsWith hagain,
      keyLength_of_not_startsWith hplain.front, hothers hsegment, hlength]
    exact ⟨rfl, hstatics⟩

theorem uniquePath_param (hparam : hasParam node.fullPath = true) :
    node.uniquePath = node.webhookId ++ "/" ++ node.storedPath := by
  rw [uniquePath, if_pos (colon_mem_storedPath.mpr (colon_mem_of_hasParam hparam)),
    node.storedId_of_true hparam, Option.getD_some]

theorem serves_param_iff (hplain : node.Plain path)
    (hparam : hasParam node.fullPath = true) (hpath : node.storedPath = node.registeredPath)
    (hsegments : segments path = segment :: others) :
    node.Serves path ↔ node.FitsSomehow segment others := by
  have hid := node.storedId_of_true hparam
  have hunique := uniquePath_param hparam
  rw [hpath] at hunique
  rw [Serves, hpath, or_iff_right hplain.template, hid, hsegments, List.head?_cons,
    List.tail_cons, Option.some_inj, hunique, FitsSomehow]
  constructor
  · rintro (htext | ⟨hsegment, hfits⟩)
    · rw [htext, segments_join hplain.slash, List.cons.injEq] at hsegments
      rw [← hsegments.1, ← hsegments.2]
      exact ⟨rfl, rfl, fun s hs => mem_of_mem_statics hs⟩
    · exact ⟨hsegment.symm, hfits⟩
  · rintro ⟨hsegment, hfits⟩
    exact .inr ⟨hsegment.symm, hfits⟩

theorem agree_param
    (hleading : node.fullPath.toList.head? ≠ some '/') (hparam : hasParam node.fullPath = true)
    (hdynamic : isDynamicPath node.fullPath = true)
    (hplain : node.Plain (removeTrailingSlash path)) : node.Agree userId httpMethod path := by
  obtain ⟨segment, others, hsegments⟩ :=
    List.exists_cons_of_ne_nil (segments_ne_nil (removeTrailingSlash path))
  have hpath := storedPath_eq hleading
  have htests := tests_param_iff hplain (node.testId_of_true hdynamic) hsegments
  rw [agree_iff, htests, serves_param_iff hplain hparam hpath hsegments]
  refine fun _ => ⟨Iff.rfl, fun hfits => ?_⟩
  -- what the removed slash leaves is after the places of the parameters
  obtain ⟨more, hmore, -⟩ := segments_of_removeTrailingSlash path
  have hwhole : ¬ node.Finds (removeTrailingSlash path) none := fun h => hplain.key.1 h.1
  have hlength := hfits.2.1
  rw [testParams, if_neg hwhole, storedParams, if_pos hparam, hpath, hmore, hsegments,
    List.tail_cons, List.cons_append, List.drop_one, List.tail_cons, positions_eq_zip hlength more]
  conv_lhs => rw [← List.append_nil others, positions_eq_zip hlength []]

variable (node path) in
/-- The path does not start with a slash, both decide alike whether it has parameters, and the
request is none of those that the lookups take differently. -/
structure Ordinary : Prop where
  leading : node.fullPath.toList.head? ≠ some '/'
  decided : isDynamicPath node.fullPath = hasParam node.fullPath
  static : hasParam node.fullPath = false → ¬ IsKey node.registeredPath ∧
    (':' ∈ node.fullPath.toList ∨ path ≠ "/" ++ node.registeredPath)
  param : hasParam node.fullPath = true → node.Plain path

theorem Ordinary.agree
    (h : node.Ordinary (removeTrailingSlash path)) : node.Agree userId httpMethod path := by
  cases hparam : hasParam node.fullPath with
  | false => exact agree_static h.leading hparam (h.static hparam).1 (h.static hparam).2
  | true => exact agree_param h.leading hparam (h.decided.trans hparam) (h.param hparam)

variable {webhookId : String}

theorem not_prefix_slash_append (hne : webhookId ≠ "")
    (hslash : '/' ∉ webhookId.toList) (rest : String) :
    ¬ webhookId.toList <+: ("/" ++ rest).toList := by
  intro hbegins
  rw [String.toList_append] at hbegins
  cases hchars : webhookId.toList with
  | nil => exact hne (String.toList_eq_nil_iff.mp hchars)
  | cons c chars =>
    rw [hchars] at hbegins hslash
    exact hslash ((List.cons_prefix_cons.mp hbegins).1 ▸ List.mem_cons_self)

theorem not_prefix_intercalate (hne : webhookId ≠ "")
    (hslash : '/' ∉ webhookId.toList) (others : List String) :
    ¬ webhookId.toList <+: ("/".intercalate ("" :: others)).toList := by
  cases others with
  | nil =>
    rw [String.intercalate_singleton]
    exact fun hbegins => hne (String.toList_eq_nil_iff.mp (List.prefix_nil.mp hbegins))
  | cons segment others =>
    rw [String.intercalate_cons_cons, String.append_assoc]
    exact not_prefix_slash_append hne hslash _

theorem slash_append_ne (path : String) : "/" ++ path ≠ path := by
  intro h
  have hlength := congrArg (fun s => s.toList.length) h
  simp [String.toList_append] at hlength

theorem slash_slash_append_ne (path : String) : "/" ++ ("/" ++ path) ≠ path := by
  intro h
  have hlength := congrArg (fun s => s.toList.length) h
  simp only [String.toList_append, List.length_append] at hlength
  have hslash : "/".toList.length = 1 := rfl
  omega

theorem registeredPath_cases (node : WebhookNode) :
    node.registeredPath = node.storedPath ∨ node.registeredPath = "/" ++ node.storedPath := by
  by_cases hleading : node.fullPath.toList.head? = some '/'
  · by_cases hempty : removeLeadingSlash node.fullPath = ""
    · refine .inl ?_
      have hpath := slash_append_removeLeadingSlash hleading
      rw [hempty] at hpath
      rw [registeredPath, storedPath, hempty, ← hpath]
      decide
    · refine .inr ?_
      rw [registeredPath, storedPath, ← removeTrailingSlash_slash_append hempty,
        slash_append_removeLeadingSlash hleading]
  · exact .inl (storedPath_eq hleading).symm

theorem exists_not_agree (userId : String) (h : ¬ (node.Tests path ↔ node.Serves path)) :
    ¬ ∀ httpMethod path, node.Agree userId httpMethod path := by
  intro hagree
  obtain ⟨httpMethod, hm⟩ := List.exists_mem_of_ne_nil _ node.httpMethods_ne
  have hboth := (agree_iff.mp (hagree httpMethod (path ++ "/")) hm).1
  rw [removeTrailingSlash_append] at hboth
  exact h hboth

theorem not_served_of_no_colon (h : ':' ∉ node.fullPath.toList) :
    ∃ path, ¬ (node.Tests path ↔ node.Serves path) := by
  have hparam : hasParam node.fullPath = false :=
    Bool.eq_false_iff.mpr fun hparam => h (colon_mem_of_hasParam hparam)
  refine ⟨"/" ++ node.registeredPath, fun hboth => ?_⟩
  have hserves := hboth.mp (tests_of_eq (testId_of_static hparam) (.inr rfl))
  rw [serves_static_iff hparam, uniquePath_static hparam, if_neg h, or_self] at hserves
  rcases registeredPath_cases node with hpath | hpath
  · rw [hpath] at hserves
    exact slash_append_ne _ hserves
  · rw [hpath] at hserves
    exact slash_slash_append_ne _ hserves

theorem not_tested_of_leading (hleading : node.fullPath.toList.head? = some '/')
    (hcolon : ':' ∈ node.fullPath.toList) (hparam : hasParam node.fullPath = false) :
    ∃ path, ¬ (node.Tests path ↔ node.Serves path) := by
  have hpath : node.registeredPath = "/" ++ node.storedPath :=
    removeTrailingSlash_of_leading hleading hcolon
  have hkey : ¬ IsKey node.registeredPath := by
    rintro ⟨webhookId, n, hne, hslash, -, heq⟩
    refine not_prefix_slash_append hne hslash node.storedPath ?_
    rw [← hpath, heq, toList_numbered]
    exact List.prefix_append _ _
  refine ⟨node.storedPath, fun hboth => ?_⟩
  have htests := hboth.mpr ((serves_static_iff hparam).mpr (.inl rfl))
  rw [tests_static_iff (testId_of_static hparam) hkey, hpath] at htests
  exact htests.elim (fun h => slash_append_ne _ h.symm) fun h => slash_slash_append_ne _ h.symm

theorem not_served_of_isKey (hleading : node.fullPath.toList.head? ≠ some '/')
    (hparam : hasParam node.fullPath = false) (hkey : IsKey node.registeredPath) :
    ∃ path, ¬ (node.Tests path ↔ node.Serves path) := by
  obtain ⟨webhookId, n, hne, hslash, hn, hpath⟩ := hkey
  obtain ⟨k, rfl⟩ : ∃ k, n = k + 1 := ⟨n - 1, by omega⟩
  have hnoslash : '/' ∉ node.registeredPath.toList := by
    rw [hpath, toList_numbered, List.mem_append, List.mem_cons]
    rintro (h | h | h)
    · exact hslash h
    · cases h
    · exact slash_not_mem_toString _ h
  -- as many segments as the key says, one of which is the path
  let others := List.replicate k "" ++ [node.registeredPath]
  have hne_nil : others ≠ [] := List.concat_ne_nil _ _
  have hothers : segments ("/".intercalate others) = others := by
    refine segments_intercalate (fun s hs => ?_) hne_nil
    rcases List.mem_append.mp hs with hs | hs
    · rw [List.eq_of_mem_replicate hs]
      exact List.not_mem_nil
    · rw [List.mem_singleton.mp hs]
      exact hnoslash
  have hlength : keyLength webhookId ("/".intercalate others) = k + 1 := by
    cases k with
    | zero =>
      have hone : "/".intercalate others = node.registeredPath := String.intercalate_singleton
      rw [hone, keyLength, afterFirstSlash_of_not_mem hnoslash, ite_self,
        segments_of_not_mem hnoslash]
      rfl
    | succ k =>
      have hshort : ¬ webhookId.toList <+: ("/".intercalate others).toList :=
        not_prefix_intercalate hne hslash (List.replicate k "" ++ [node.registeredPath])
      rw [keyLength_of_not_startsWith hshort, hothers, List.length_append, List.length_replicate,
        List.length_singleton]
  have hsegments : segments (webhookId ++ "/" ++ "/".intercalate others) = webhookId :: others := by
    rw [segments_join hslash, hothers]
  refine ⟨webhookId ++ "/" ++ "/".intercalate others, fun hboth => ?_⟩
  have hserves := hboth.mp <| .inr <| by
    rw [hsegments, List.head?_cons, List.tail_cons, Finds, testId_of_static hparam, keyRest_none,
      keyRest_some hne, hlength, hothers, segments_of_not_mem hnoslash]
    refine ⟨hpath.symm, fun s hs => ?_⟩
    exact List.mem_append_right _ (mem_of_mem_statics hs)
  have htwo : ∀ other, segments other = [node.registeredPath] →
      webhookId ++ "/" ++ "/".intercalate others ≠ other := by
    intro other hone heq
    rw [← heq, hsegments, List.cons.injEq] at hone
    exact hne_nil hone.2
  rw [serves_static_iff hparam, uniquePath_static hparam, storedPath_eq hleading] at hserves
  split at hserves
  · rcases hserves with hserves | hserves
    · exact htwo _ (segments_of_not_mem hnoslash) hserves
    · rw [hserves, segments_slash_append, List.cons.injEq] at hsegments
      exact hne hsegments.1.symm
  · exact htwo _ (segments_of_not_mem hnoslash) (hserves.elim id id)

theorem serves_uniquePath (hparam : hasParam node.fullPath = true) :
    node.Serves (node.webhookId ++ "/" ++ node.storedPath) :=
  .inr (.inl (uniquePath_param hparam).symm)

theorem not_serves_slash {rest : String} (hparam : hasParam node.fullPath = true)
    (hstored : "/" ++ rest ≠ node.storedPath)
    (hunique : "/" ++ rest ≠ node.webhookId ++ "/" ++ node.storedPath) :
    ¬ node.Serves ("/" ++ rest) := by
  rintro (hpath | hpath | ⟨hid, -⟩)
  · exact hstored hpath
  · exact hunique (hpath.trans (uniquePath_param hparam))
  · rw [node.storedId_of_true hparam, segments_slash_append, List.head?_cons,
      Option.some_inj] at hid
    exact node.webhookId_ne hid

theorem not_served_of_hidden (hparam : hasParam node.fullPath = true)
    (hdynamic : isDynamicPath node.fullPath = false) :
    ∃ path, ¬ (node.Tests path ↔ node.Serves path) := by
  refine ⟨"/" ++ node.storedPath, fun hboth => ?_⟩
  have hpath : "/" ++ node.storedPath = node.registeredPath ∨
      "/" ++ node.storedPath = "/" ++ node.registeredPath := by
    rcases registeredPath_cases node with hpath | hpath
    · exact .inr (by rw [hpath])
    · exact .inl hpath.symm
  refine not_serves_slash hparam (slash_append_ne _) (fun hunique => ?_)
    (hboth.mp (tests_of_eq (node.testId_of_false hdynamic) hpath))
  -- the id would be empty
  have hlength := congrArg (fun s => s.toList.length) hunique
  simp only [String.toList_append, List.length_append] at hlength
  refine node.webhookId_ne (String.toList_eq_nil_iff.mp (List.length_eq_zero_iff.mp ?_))
  omega

theorem prefix_key (hid : node.testId = some node.webhookId) :
    node.webhookId.toList <+: node.key.toList := by
  rw [key_eq hid, toList_numbered]
  exact List.prefix_append _ _

theorem slash_not_mem_key (hid : node.testId = some node.webhookId)
    (hslash : '/' ∉ node.webhookId.toList) : '/' ∉ node.key.toList := by
  rw [key_eq hid, toList_numbered, List.mem_append, List.mem_cons]
  rintro (h | h | h)
  · exact hslash h
  · cases h
  · exact slash_not_mem_toString _ h

theorem prefix_of_head?_segments (h : (segments path).head? = some segment) :
    segment.toList <+: path.toList := by
  obtain ⟨others, hsegments⟩ := List.head?_eq_some_iff.mp h
  by_cases hothers : others = []
  · rw [hothers] at hsegments
    have hpath : path = segment := eq_of_segments_singleton hsegments
    exact hpath ▸ List.prefix_rfl
  · rw [eq_join hsegments hothers, String.toList_append, String.toList_append, List.append_assoc]
    exact List.prefix_append _ _

theorem removeTrailingSlash_prefix (path : String) :
    (removeTrailingSlash path).toList <+: path.toList := by
  rw [removeTrailingSlash]
  split
  · rw [String.toList_ofList]
    exact List.dropLast_prefix _
  · exact List.prefix_rfl

theorem not_tested_of_slash_id (hparam : hasParam node.fullPath = true)
    (hid : node.testId = some node.webhookId) (hslash : '/' ∈ node.webhookId.toList) :
    ∃ path, ¬ (node.Tests path ↔ node.Serves path) := by
  refine ⟨node.webhookId ++ "/" ++ node.storedPath, fun hboth => ?_⟩
  have htext : (node.webhookId ++ "/" ++ node.storedPath).toList
      = node.webhookId.toList ++ '/' :: node.storedPath.toList := by
    rw [String.toList_append, String.toList_append, List.append_assoc]
    rfl
  rcases of_tests hid (hboth.mpr (serves_uniquePath hparam)) with h | h | ⟨hnoslash, -⟩
  · have hchars := congrArg String.toList h
    rw [htext, key_eq hid, toList_numbered] at hchars
    cases (List.cons.inj (List.append_cancel_left hchars)).1
  · -- the row would have the path of a number, which has no parameter
    have hchars := congrArg String.toList h
    rw [htext, key_eq hid, String.toList_append, toList_numbered] at hchars
    have hsplit : (node.webhookId.toList ++ ['/']) ++ node.storedPath.toList
        = ('/' :: node.webhookId.toList) ++ '|' ::
          (toString (keyLength node.webhookId node.registeredPath)).toList := by
      rw [List.append_assoc]
      exact hchars
    have hstored := (List.append_inj hsplit (by simp)).2
    have hnumber : '/' ∉ node.storedPath.toList := by
      rw [hstored, List.mem_cons]
      rintro (h | h)
      · cases h
      · exact slash_not_mem_toString _ h
    rw [← hasParam_storedPath, hasParam_eq, segments_of_not_mem hnumber, List.any_cons,
      List.any_nil, Bool.or_false, isParam, hstored] at hparam
    cases hparam
  · exact hnoslash hslash

theorem not_tested_of_length (hparam : hasParam node.fullPath = true)
    (hid : node.testId = some node.webhookId) (hslash : '/' ∉ node.webhookId.toList)
    (hlength : keyLength node.webhookId node.registeredPath ≠ (segments node.storedPath).length) :
    ∃ path, ¬ (node.Tests path ↔ node.Serves path) := by
  obtain ⟨p, hp, hisParam⟩ := hasParam_iff.mp (node.hasParam_storedPath.trans hparam)
  let others := "" :: (segments node.storedPath).erase p
  have hothers : segments ("/".intercalate others) = others := by
    refine segments_intercalate (fun s hs => ?_) (List.cons_ne_nil _ _)
    rcases List.mem_cons.mp hs with rfl | hs
    · exact List.not_mem_nil
    · exact slash_not_mem _ (List.mem_of_mem_erase hs)
  have hcount : others.length = (segments node.storedPath).length := by
    have hone := one_le_length_segments node.storedPath
    rw [List.length_cons, List.length_erase_of_mem hp]
    omega
  have hsegments : segments (node.webhookId ++ "/" ++ "/".intercalate others)
      = node.webhookId :: others := by
    rw [segments_join hslash, hothers]
  refine ⟨node.webhookId ++ "/" ++ "/".intercalate others, fun hboth => ?_⟩
  have hserves : node.Serves (node.webhookId ++ "/" ++ "/".intercalate others) := by
    refine .inr (.inr ?_)
    rw [hsegments, node.storedId_of_true hparam]
    refine ⟨rfl, hcount.symm, fun s hs => List.mem_cons_of_mem _ ?_⟩
    refine (List.mem_erase_of_ne ?_).mpr (mem_of_mem_statics hs)
    rintro rfl
    have hstatic := (List.mem_filter.mp hs).2
    rw [hisParam] at hstatic
    cases hstatic
  have hkey : ∀ rest : String, '/' ∈ (node.webhookId ++ "/" ++ rest).toList := by
    intro rest
    simp
  rcases of_tests hid (hboth.mpr hserves) with h | h | ⟨-, -, h⟩
  · exact slash_not_mem_key hid hslash (h ▸ hkey _)
  · rw [h, segments_slash_append, List.cons.injEq] at hsegments
    exact node.webhookId_ne hsegments.1.symm
  · rw [hsegments, List.tail_cons, keyLength_of_not_startsWith
      (not_prefix_intercalate node.webhookId_ne hslash _), hothers, hcount] at h
    exact hlength h.1.symm

theorem not_alike_of_param (hparam : hasParam node.fullPath = true)
    (hdynamic : isDynamicPath node.fullPath = true) :
    ∃ path, ¬ (node.Tests path ↔ node.Serves path) := by
  have hid := node.testId_of_true hdynamic
  by_cases hslash : '/' ∈ node.webhookId.toList
  · exact not_tested_of_slash_id hparam hid hslash
  by_cases hleading : node.fullPath.toList.head? = some '/'
  · -- the key counts the leading slash
    have hpath : node.registeredPath = "/" ++ node.storedPath :=
      removeTrailingSlash_of_leading hleading (colon_mem_of_hasParam hparam)
    refine not_tested_of_length hparam hid hslash ?_
    rw [hpath, keyLength_of_not_startsWith (not_prefix_slash_append node.webhookId_ne hslash _),
      segments_slash_append, List.length_cons]
    exact Nat.succ_ne_self _
  have hpath := storedPath_eq hleading
  by_cases hbegins : node.webhookId.toList <+: node.registeredPath.toList
  · by_cases hreg : '/' ∈ node.registeredPath.toList
    · -- the key does not count the first segment
      refine not_tested_of_length hparam hid hslash ?_
      have hone := one_le_length_segments node.registeredPath
      rw [keyLength, if_pos hbegins, segments_afterFirstSlash hreg, hpath, List.length_tail]
      omega
    · -- all is one parameter, and the key itself is found after a slash
      have hnone : statics (segments node.registeredPath) = [] := by
        have hisParam := node.hasParam_registeredPath.trans hparam
        rw [hasParam_eq, segments_of_not_mem hreg, List.any_cons, List.any_nil,
          Bool.or_false] at hisParam
        rw [segments_of_not_mem hreg, statics, List.filter_cons, hisParam]
        rfl
      refine ⟨"/" ++ node.key, fun hboth => ?_⟩
      refine not_serves_slash hparam (fun h => ?_) (fun h => ?_) (hboth.mp (.inr ?_))
      · rw [hpath] at h
        exact hreg (h ▸ by simp)
      · refine not_prefix_slash_append node.webhookId_ne hslash node.key ?_
        rw [h, String.toList_append, String.toList_append, List.append_assoc]
        exact List.prefix_append _ _
      · rw [segments_slash_append, List.head?_cons, List.tail_cons, intercalate_segments, Finds,
          hnone, keyRest_empty]
        exact ⟨rfl, fun _ hs => absurd hs List.not_mem_nil⟩
  · -- the path itself is a row
    refine ⟨node.storedPath, fun hboth => ?_⟩
    rcases of_tests hid (hboth.mpr (.inl rfl)) with h | h | ⟨-, h, -⟩
    · rw [hpath] at h
      exact hbegins (h ▸ prefix_key hid)
    · rw [hpath] at h
      have hfront : node.registeredPath.toList <+: node.fullPath.toList :=
        removeTrailingSlash_prefix node.fullPath
      rw [h, String.toList_append] at hfront
      exact hleading (List.head?_eq_some_iff.mpr ⟨_, hfront.choose_spec.symm⟩)
    · rw [hpath] at h
      exact hbegins (prefix_of_head?_segments h)

variable (node) in
/-- A path with a colon, but without parameters and without a leading slash, that is not the
text of a key. -/
structure ColonInside : Prop where
  leading : node.fullPath.toList.head? ≠ some '/'
  colon : ':' ∈ node.fullPath.toList
  static : hasParam node.fullPath = false
  notKey : ¬ IsKey node.registeredPath

/-- **When all requests are served alike, and which are for every node.** -/
theorem agreement (node : WebhookNode) (userId : String) :
    ((∀ httpMethod path, node.Agree userId httpMethod path) ↔ node.ColonInside) ∧
      ∀ httpMethod path, node.Ordinary (removeTrailingSlash path) →
        node.Agree userId httpMethod path := by
  refine ⟨⟨fun hagree => ?_, fun h httpMethod path => ?_⟩, fun _ _ h => h.agree⟩
  · have hall : ∀ path, node.Tests path ↔ node.Serves path := by
      intro path
      by_contra hpath
      exact exists_not_agree userId hpath hagree
    have hstatic : hasParam node.fullPath = false := by
      refine Bool.eq_false_iff.mpr fun hparam => ?_
      cases hdynamic : isDynamicPath node.fullPath with
      | false =>
        obtain ⟨path, hpath⟩ := not_served_of_hidden hparam hdynamic
        exact hpath (hall path)
      | true =>
        obtain ⟨path, hpath⟩ := not_alike_of_param hparam hdynamic
        exact hpath (hall path)
    have hcolon : ':' ∈ node.fullPath.toList := by
      by_contra h
      obtain ⟨path, hpath⟩ := not_served_of_no_colon h
      exact hpath (hall path)
    have hleading : node.fullPath.toList.head? ≠ some '/' := by
      intro h
      obtain ⟨path, hpath⟩ := not_tested_of_leading h hcolon hstatic
      exact hpath (hall path)
    refine ⟨hleading, hcolon, hstatic, fun h => ?_⟩
    obtain ⟨path, hpath⟩ := not_served_of_isKey hleading hstatic h
    exact hpath (hall path)
  · exact agree_static h.leading h.static h.notKey (.inl h.colon)

/-- `:x/static`: the row has the parameter, the registration is under the path itself. -/
def hiddenParam : WebhookNode where
  workflowId := "1"
  name := "Webhook"
  type := "n8n-nodes-base.webhook"
  webhookId := "uuid"
  path := ":x/static"
  httpMethods := [.GET]
  webhookId_ne := by decide
  httpMethods_ne := by decide

/-- Production serves the request, the test does not. -/
theorem not_agree_hiddenParam : ¬ ∀ (node : WebhookNode) (userId : String)
    (httpMethod : IHttpRequestMethods) (path : String), node.Agree userId httpMethod path := by
  intro h
  have hagree := (agree_iff.mp (h hiddenParam "user" .GET "uuid/5/static") (by decide)).1
  exact absurd hagree (by decide)

end WebhookNode

end N8n
