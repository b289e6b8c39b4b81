/-
The table of webhooks under changes.

A row is stored under its path and its method.  An upsert on these writes the columns that
the entity has and leaves the others, and rows are removed by what they are stored under.

* `WebhookTable.get?_upsert`, `get?_remove` — the rows after a change;
* `Dict.get?_eraseAll` — a dictionary after several deletions.
-/
import N8n.WebhookService

namespace N8n

namespace Dict

variable {κ α : Type*} [DecidableEq κ]

def eraseAll (d : Dict κ α) (keys : List κ) : Dict κ α := keys.foldl erase d

theorem get?_eraseAll {k : κ} : ∀ {keys : List κ} {d : Dict κ α},
    (d.eraseAll keys).get? k = if k ∈ keys then none else d.get? k
  | [], _ => rfl
  | key :: keys, d => by
    have hrest : ((d.erase key).eraseAll keys).get? k
        = if k ∈ keys then none else (d.erase key).get? k := get?_eraseAll
    rw [eraseAll, List.foldl_cons, ← eraseAll, hrest, get?_erase]
    by_cases hk : k = key
    · simp [hk]
    · simp [hk]

theorem get?_setAll_cases {k : κ} {v : α} : ∀ {entries : List (κ × α)} {d : Dict κ α},
    (d.setAll entries).get? k = some v → (k, v) ∈ entries ∨
      d.get? k = some v ∧ ∀ e ∈ entries, e.1 ≠ k
  | [], _, h => Or.inr ⟨h, List.forall_mem_nil _⟩
  | e :: entries, d, h => by
    rw [setAll, List.foldl_cons, ← setAll] at h
    rcases get?_setAll_cases h with hmem | ⟨hget, hne⟩
    · exact Or.inl (List.mem_cons_of_mem e hmem)
    · rw [get?_set] at hget
      split at hget
      · rename_i hk
        cases hget
        exact Or.inl (hk ▸ List.mem_cons_self)
      · rename_i hk
        exact Or.inr ⟨hget, List.forall_mem_cons.mpr ⟨Ne.symm hk, hne⟩⟩

end Dict

namespace WebhookEntity

/-- The primary key of the table. -/
def primaryKey (w : WebhookEntity) : String × IHttpRequestMethods := (w.webhookPath, w.method)

/-- The row after an upsert of `w` where `old` was: a column that the entity does not have
keeps its value. -/
def replacing (w : WebhookEntity) : Option WebhookEntity → WebhookEntity
  | none => w
  | some old => { w with
      webhookId := w.webhookId.or old.webhookId, pathLength := w.pathLength.or old.pathLength }

@[simp] theorem primaryKey_replacing (w : WebhookEntity) (old : Option WebhookEntity) :
    (w.replacing old).primaryKey = w.primaryKey := by
  cases old <;> rfl

end WebhookEntity

/-- The rows by their primary keys. -/
structure WebhookTable where
  rows : Dict (String × IHttpRequestMethods) WebhookEntity
  keyed : ∀ key w, rows.get? key = some w → w.primaryKey = key

namespace WebhookTable

def empty : WebhookTable := ⟨.empty, fun _ _ h => by cases h⟩

variable (t : WebhookTable)

/-- `findOneBy({ webhookPath, method })`. -/
def findOneBy (webhookPath : String) (method : IHttpRequestMethods) : Option WebhookEntity :=
  t.rows.get? (webhookPath, method)

/-- `findBy({ workflowId })`. -/
def findByWorkflow (workflowId : String) : List WebhookEntity :=
  t.rows.values.filter fun w => w.workflowId = workflowId

def getStaticWebhooks : List WebhookEntity := t.rows.values.filter fun w => w.webhookId = none

def upsert (w : WebhookEntity) : WebhookTable where
  rows := t.rows.set w.primaryKey (w.replacing (t.rows.get? w.primaryKey))
  keyed := by
    intro key v hv
    rw [Dict.get?_set] at hv
    split at hv
    · rename_i hkey
      cases hv
      rw [WebhookEntity.primaryKey_replacing, hkey]
    · exact t.keyed key v hv

def remove (webhooks : List WebhookEntity) : WebhookTable where
  rows := t.rows.eraseAll (webhooks.map (·.primaryKey))
  keyed := by
    intro key v hv
    rw [Dict.get?_eraseAll] at hv
    split at hv
    · cases hv
    · exact t.keyed key v hv

variable {t}

theorem get?_upsert (w : WebhookEntity) (key : String × IHttpRequestMethods) :
    (t.upsert w).rows.get? key
      = if key = w.primaryKey then some (w.replacing (t.rows.get? w.primaryKey))
        else t.rows.get? key :=
  Dict.get?_set _ _ _ _

theorem get?_remove (webhooks : List WebhookEntity) (key : String × IHttpRequestMethods) :
    (t.remove webhooks).rows.get? key
      = if key ∈ webhooks.map (·.primaryKey) then none else t.rows.get? key := by
  rw [remove, Dict.get?_eraseAll]
  by_cases h : key ∈ webhooks.map (·.primaryKey)
  · rw [if_pos h, if_pos h]
  · rw [if_neg h, if_neg h]

variable {w : WebhookEntity}

theorem get?_of_mem_values (h : w ∈ t.rows.values) :
    t.rows.get? w.primaryKey = some w := by
  obtain ⟨key, hkey⟩ := Dict.mem_values_iff.mp h
  rw [t.keyed key w hkey]
  exact hkey

theorem get?_of_mem_findByWorkflow {workflowId : String}
    (h : w ∈ t.findByWorkflow workflowId) :
    t.rows.get? w.primaryKey = some w ∧ w.workflowId = workflowId := by
  obtain ⟨hw, hid⟩ := List.mem_filter.mp h
  exact ⟨get?_of_mem_values hw, of_decide_eq_true hid⟩

end WebhookTable

end N8n
