/-
The row of a webhook.

`addWebhooks` stores a webhook without its outer slashes; if its path has a parameter, the
row has the webhook id of the node and the number of segments.

* `isDynamicPath`, `addedWebhook` — the two decisions whether a path has parameters;
* `hasParam_removeLeadingSlash`, `hasParam_removeTrailingSlash` — the outer slashes do not
  matter for it.
-/
import N8n.TestWebhookLookup

namespace N8n

open PathPattern LiveWebhooks

/-- The first segment is disregarded, as a webhook id. -/
def isDynamicPath (rawPath : String) : Bool :=
  let path := afterFirstSlash rawPath
  if path = "" ∨ path = ":" ∨ path = "/:" then false else hasParam path

def removeLeadingSlash (path : String) : String :=
  if path.toList.head? = some '/' then String.ofList (path.toList.drop 1) else path

/-- The row that `addWebhooks` makes of a webhook of a node with this id. -/
def addedWebhook (workflowId node : String) (method : IHttpRequestMethods) (path : String)
    (nodeWebhookId : Option String) : WebhookEntity :=
  let webhookPath := removeTrailingSlash (removeLeadingSlash path)
  let webhookId := if hasParam path then nodeWebhookId.filter (· ≠ "") else none
  { workflowId, webhookPath, method, node, webhookId,
    pathLength := webhookId.map fun _ => (segments webhookPath).length }

variable {path : String}

theorem removeLeadingSlash_of_ne (h : path.toList.head? ≠ some '/') :
    removeLeadingSlash path = path := if_neg h

theorem slash_append_removeLeadingSlash (h : path.toList.head? = some '/') :
    "/" ++ removeLeadingSlash path = path := by
  obtain ⟨rest, hrest⟩ := List.head?_eq_some_iff.mp h
  rw [removeLeadingSlash, if_pos h, ← String.toList_inj, String.toList_append, hrest,
    List.drop_one, List.tail_cons]
  exact congrArg ('/' :: ·) String.toList_ofList

theorem segments_slash_append (path : String) : segments ("/" ++ path) = "" :: segments path :=
  @segments_join "" (by simp) path

theorem hasParam_removeLeadingSlash (path : String) :
    hasParam (removeLeadingSlash path) = hasParam path := by
  by_cases h : path.toList.head? = some '/'
  · conv_rhs => rw [← slash_append_removeLeadingSlash h, hasParam_eq, segments_slash_append]
    rw [hasParam_eq, List.any_cons]
    rfl
  · rw [removeLeadingSlash_of_ne h]

theorem hasParam_removeTrailingSlash (path : String) :
    hasParam (removeTrailingSlash path) = hasParam path := by
  obtain ⟨more, hpath, hmore⟩ := segments_of_removeTrailingSlash path
  have hnone : more.any isParam = false :=
    List.any_eq_false.mpr fun s hs => Bool.eq_false_iff.mp (hmore s hs)
  rw [hasParam_eq, hasParam_eq, hpath, List.any_append, hnone, Bool.or_false]

theorem mem_removeTrailingSlash {c : Char} (hc : c ≠ '/') :
    c ∈ (removeTrailingSlash path).toList ↔ c ∈ path.toList := by
  rw [removeTrailingSlash]
  split
  · rename_i hlast
    conv_rhs => rw [← List.dropLast_append_getLast? '/' hlast]
    rw [String.toList_ofList, List.mem_append, List.mem_singleton]
    exact (or_iff_left hc).symm
  · rfl

theorem removeTrailingSlash_slash_append (h : path ≠ "") :
    removeTrailingSlash ("/" ++ path) = "/" ++ removeTrailingSlash path := by
  have htext : ("/" ++ path).toList = '/' :: path.toList := String.toList_append
  have hne : path.toList ≠ [] := fun hnil => h (String.toList_eq_nil_iff.mp hnil)
  rw [removeTrailingSlash, removeTrailingSlash, htext, List.getLast?_cons_of_ne_nil hne,
    List.dropLast_cons_of_ne_nil hne]
  split
  · rw [← String.toList_inj, String.toList_append, String.toList_ofList]
    exact congrArg ('/' :: ·) String.toList_ofList.symm
  · rfl

theorem removeTrailingSlash_of_leading (h : path.toList.head? = some '/')
    (hcolon : ':' ∈ path.toList) :
    removeTrailingSlash path = "/" ++ removeTrailingSlash (removeLeadingSlash path) := by
  have hne : removeLeadingSlash path ≠ "" := by
    intro hempty
    have hpath := slash_append_removeLeadingSlash h
    rw [hempty] at hpath
    rw [← hpath] at hcolon
    exact absurd hcolon (by decide)
  conv_lhs => rw [← slash_append_removeLeadingSlash h]
  exact removeTrailingSlash_slash_append hne

section

variable {workflowId node path : String} {method : IHttpRequestMethods}
  {nodeWebhookId : Option String}

theorem hasParam_addedWebhook :
    hasParam (addedWebhook workflowId node method path nodeWebhookId).webhookPath = hasParam path :=
  by rw [addedWebhook, hasParam_removeTrailingSlash, hasParam_removeLeadingSlash]

theorem wellFormed_addedWebhook :
    (addedWebhook workflowId node method path nodeWebhookId).WellFormed := by
  have hdynamic : (addedWebhook workflowId node method path nodeWebhookId).isDynamic
      = hasParam path := by
    rw [WebhookEntity.isDynamic, ← hasParam_eq, hasParam_addedWebhook]
  have hid : (addedWebhook workflowId node method path nodeWebhookId).webhookId
      = if hasParam path then nodeWebhookId.filter (· ≠ "") else none := rfl
  have hlength : (addedWebhook workflowId node method path nodeWebhookId).pathLength
      = (addedWebhook workflowId node method path nodeWebhookId).webhookId.map fun _ =>
          (segments (addedWebhook workflowId node method path nodeWebhookId).webhookPath).length :=
    rfl
  generalize addedWebhook workflowId node method path nodeWebhookId = w at *
  rw [WebhookEntity.WellFormed]
  split
  · rename_i hnone
    rw [hlength, hnone, Option.map_none]
  · rename_i id hsome
    refine ⟨?_, by rw [hlength, hsome, Option.map_some]⟩
    rw [hdynamic]
    by_contra hparam
    rw [hsome, if_neg hparam] at hid
    cases hid

end

end N8n
