/-
The webhook cache beside the table of webhooks.

Each call of the service is a sequence of cache and store calls, between which other calls
go on.  A lookup fills the cache after it read the table, storing fills it before the table
is written, a deletion starts a cache write that is not awaited, and so does filling the
cache with all static webhooks.

* **`WebhookStore.consistent_of_quiet`** — where no turn disturbs another call, the cache
  has stored rows only whenever nothing is in progress.
-/
import N8n.Runs
import N8n.WebhookTable

namespace N8n

/-- The cache or store call that a call of the service awaits. -/
inductive WebhookCall where
  | get (method : IHttpRequestMethods) (path : String)
  | findOneBy (method : IHttpRequestMethods) (path : String)
  | set (cacheKey : String) (dbStaticWebhook : WebhookEntity)
  | findBy (method : IHttpRequestMethods) (path : String)
  | setStored (webhook : WebhookEntity)
  | upsert (webhook : WebhookEntity)
  | findWorkflow (workflowId : String)
  | remove (webhooks : List WebhookEntity)
  | getStaticWebhooks
  deriving DecidableEq

/-- A cache write that nothing awaits. -/
inductive DetachedWrite where
  | setMany (keysValues : List (String × WebhookEntity))
  | deleteMany (keys : List String)
  deriving DecidableEq

/-- A call of the service; the cache or store call that the `i`-th call awaits, which for an
upsert may fail; the `j`-th detached write; the cache fails from now on or works again, or
drops an entry. -/
inductive WebhookInput where
  | findWebhook (method : IHttpRequestMethods) (path : String)
  | storeWebhook (webhook : WebhookEntity)
  | deleteWorkflowWebhooks (workflowId : String)
  | populateCache
  | proceed (i : ℕ) (upsertFails : Bool)
  | write (j : ℕ)
  | setAvailable (available : Bool)
  | evict (key : String)
  deriving DecidableEq

structure WebhookStore where
  table : WebhookTable
  cacheService : CacheService := {}
  calls : List WebhookCall := []
  writes : List DetachedWrite := []

namespace WebhookStore
variable (s : WebhookStore)

/-- The calls besides the one that goes on. -/
def others (i : ℕ) : WebhookStore := { s with calls := s.calls.eraseIdx i }

def await (call : WebhookCall) : WebhookStore :=
  { s with calls := s.calls ++ [call] }

def detach (write : DetachedWrite) : WebhookStore :=
  { s with writes := s.writes ++ [write] }

def setEntries (entries : Dict String WebhookEntity) : WebhookStore :=
  { s with cacheService := { s.cacheService with entries } }

def cacheSet (key : String) (w : WebhookEntity) : WebhookStore :=
  match s.cacheService.set key w with
  | .ok cacheService => { s with cacheService }
  | .error _ => s

/-- The cache or store call is executed, and the call goes on to the next. -/
def resume (upsertFails : Bool) : WebhookCall → WebhookStore
  | .get method path => match s.cacheService.get (webhookCacheKey method path) with
    | .ok (some _) => s
    | _ => s.await (.findOneBy method path)
  | .findOneBy method path => match s.table.findOneBy path method with
    | some dbStaticWebhook => s.await (.set (webhookCacheKey method path) dbStaticWebhook)
    | none => s.await (.findBy method path)
  | .set cacheKey dbStaticWebhook => s.cacheSet cacheKey dbStaticWebhook
  | .findBy _ _ => s
  | .setStored webhook => (s.cacheSet webhook.cacheKey webhook).await (.upsert webhook)
  | .upsert webhook => if upsertFails then s else { s with table := s.table.upsert webhook }
  | .findWorkflow workflowId =>
    let webhooks := s.table.findByWorkflow workflowId
    (s.detach (.deleteMany (webhooks.map (·.cacheKey)))).await (.remove webhooks)
  | .remove webhooks => { s with table := s.table.remove webhooks }
  | .getStaticWebhooks =>
    if s.table.getStaticWebhooks = [] then s
    else s.detach (.setMany (s.table.getStaticWebhooks.map fun w => (w.cacheKey, w)))

def execute : DetachedWrite → WebhookStore
  | .setMany keysValues =>
    if s.cacheService.available then s.setEntries (s.cacheService.entries.setAll keysValues) else s
  | .deleteMany keys =>
    if s.cacheService.available then s.setEntries (s.cacheService.entries.eraseAll keys) else s

def step : WebhookInput → Except Unit WebhookStore
  | .findWebhook method path => .ok (s.await (.get method path))
  | .storeWebhook webhook => .ok (s.await (.setStored webhook))
  | .deleteWorkflowWebhooks workflowId => .ok (s.await (.findWorkflow workflowId))
  | .populateCache => .ok (s.await .getStaticWebhooks)
  | .proceed i upsertFails => match s.calls[i]? with
    | none => .error ()
    | some call => .ok ((s.others i).resume upsertFails call)
  | .write j => match s.writes[j]? with
    | none => .error ()
    | some write => .ok ({ s with writes := s.writes.eraseIdx j }.execute write)
  | .setAvailable available => .ok { s with cacheService := { s.cacheService with available } }
  | .evict key => .ok (s.setEntries (s.cacheService.entries.erase key))

def start (table : WebhookTable) : WebhookStore := { table }

def Quiet : Prop := s.calls = [] ∧ s.writes = []

/-- What is cached under a key is a stored row, whose path or unique path the key is of. -/
def Consistent : Prop :=
  ∀ key w, s.cacheService.entries.get? key = some w → s.table.rows.get? w.primaryKey = some w ∧
    (key = w.cacheKey ∨ key = webhookCacheKey w.method w.webhookPath)

def Stored (w : WebhookEntity) : Prop :=
  s.table.rows.get? w.primaryKey = some w

/-- A deletion of the key is in progress, or the upsert of what is cached. -/
def Awaited (key : String) (w : WebhookEntity) : Prop :=
  (∃ write ∈ s.writes, ∃ keys, write = .deleteMany keys ∧ key ∈ keys) ∨
    (.upsert w ∈ s.calls ∧ key = w.cacheKey)

def Covered (key : String) (w : WebhookEntity) : Prop :=
  s.Stored w ∨ s.Awaited key w

instance (s : WebhookStore) (w : WebhookEntity) : Decidable (s.Stored w) :=
  inferInstanceAs (Decidable (_ = _))

instance (s : WebhookStore) (key : String) (w : WebhookEntity) : Decidable (s.Awaited key w) := by
  have : ∀ write : DetachedWrite, Decidable (∃ keys, write = .deleteMany keys ∧ key ∈ keys) := by
    intro write
    cases write with
    | setMany keysValues => exact isFalse fun ⟨_, h, _⟩ => by cases h
    | deleteMany keys =>
      exact decidable_of_iff (key ∈ keys) ⟨fun h => ⟨keys, rfl, h⟩, fun ⟨_, h, hk⟩ => by
        cases h
        exact hk⟩
  exact inferInstanceAs (Decidable (_ ∨ _))

instance (s : WebhookStore) (key : String) (w : WebhookEntity) : Decidable (s.Covered key w) :=
  inferInstanceAs (Decidable (_ ∨ _))

/-- A webhook that is cached from the table is still stored; an upsert leaves nothing else
cached for its row, and one that fails has not cached its webhook; a row is removed while
it is not cached: or else another deletion or upsert is in progress that sees to it. -/
def ResumesWell (i : ℕ) (upsertFails : Bool) : WebhookCall → Prop
  | .set cacheKey dbStaticWebhook =>
    s.cacheService.available = true → s.Covered cacheKey dbStaticWebhook
  | .upsert webhook => ∀ e ∈ s.cacheService.entries.entries, e.2.primaryKey = webhook.primaryKey →
    if upsertFails = true then e.2 = webhook → (s.others i).Covered e.1 e.2
    else e.2 = webhook.replacing (s.table.rows.get? webhook.primaryKey) ∨ (s.others i).Awaited e.1 e.2
  | .remove webhooks => ∀ e ∈ s.cacheService.entries.entries,
    e.2.primaryKey ∈ webhooks.map (·.primaryKey) → s.Awaited e.1 e.2
  | _ => True

instance (s : WebhookStore) (i : ℕ) (upsertFails : Bool) (call : WebhookCall) :
    Decidable (s.ResumesWell i upsertFails call) := by
  unfold ResumesWell
  split <;> infer_instance

def otherWrites (j : ℕ) : WebhookStore :=
  { s with writes := s.writes.eraseIdx j }

/-- All that the cache is filled with is still stored; a deletion that fails had nothing to
delete, or another one is in progress. -/
def ExecutesWell (j : ℕ) : DetachedWrite → Prop
  | .setMany keysValues => s.cacheService.available = true → ∀ e ∈ keysValues, s.Covered e.1 e.2
  | .deleteMany keys => s.cacheService.available = false → ∀ e ∈ s.cacheService.entries.entries,
    e.1 ∈ keys → (s.otherWrites j).Covered e.1 e.2

instance (s : WebhookStore) (j : ℕ) (write : DetachedWrite) : Decidable (s.ExecutesWell j write) := by
  cases write with
  | setMany keysValues => exact inferInstanceAs (Decidable (_ → _))
  | deleteMany keys => exact inferInstanceAs (Decidable (_ → _))

def Undisturbed : WebhookInput → Prop
  | .proceed i upsertFails => ∀ call ∈ s.calls[i]?, s.ResumesWell i upsertFails call
  | .write j => ∀ write ∈ s.writes[j]?, s.ExecutesWell j write
  | _ => True

instance (s : WebhookStore) (input : WebhookInput) : Decidable (s.Undisturbed input) := by
  cases input with
  | proceed i upsertFails => exact inferInstanceAs (Decidable (∀ call ∈ s.calls[i]?, _))
  | write j => exact inferInstanceAs (Decidable (∀ write ∈ s.writes[j]?, _))
  | _ => exact inferInstanceAs (Decidable True)

section Invariant

variable {s t : WebhookStore} {key : String} {w : WebhookEntity}

def KeyOf (key : String) (w : WebhookEntity) : Prop :=
  key = w.cacheKey ∨ key = webhookCacheKey w.method w.webhookPath

structure Inv (s : WebhookStore) : Prop where
  covered : ∀ key w, s.cacheService.entries.get? key = some w → KeyOf key w ∧ s.Covered key w
  /-- What is going to be cached will be under a key of its own. -/
  set : ∀ key w, .set key w ∈ s.calls → KeyOf key w
  setMany : ∀ keysValues, .setMany keysValues ∈ s.writes → ∀ e ∈ keysValues, KeyOf e.1 e.2

theorem Inv.consistent (h : s.Inv) (hquiet : s.Quiet) : s.Consistent := by
  intro key w hget
  obtain ⟨hkey, hstored | ⟨write, hwrite, -⟩ | ⟨hupsert, -⟩⟩ := h.covered key w hget
  · exact ⟨hstored, hkey⟩
  · rw [hquiet.2] at hwrite
    cases hwrite
  · rw [hquiet.1] at hupsert
    cases hupsert

theorem Inv.initial (table : WebhookTable) : (start table).Inv where
  covered := fun _ _ h => by cases h
  set := fun _ _ h => by cases h
  setMany := fun _ h => by cases h

theorem Awaited.mono (h : s.Awaited key w)
    (hcalls : WebhookCall.upsert w ∈ s.calls → WebhookCall.upsert w ∈ t.calls)
    (hwrites : ∀ keys, .deleteMany keys ∈ s.writes → .deleteMany keys ∈ t.writes) :
    t.Awaited key w := by
  rcases h with ⟨write, hwrite, keys, rfl, hkey⟩ | ⟨hupsert, hkey⟩
  · exact Or.inl ⟨_, hwrites keys hwrite, keys, rfl, hkey⟩
  · exact Or.inr ⟨hcalls hupsert, hkey⟩

theorem Covered.mono (h : s.Covered key w) (htable : t.table = s.table)
    (hcalls : WebhookCall.upsert w ∈ s.calls → WebhookCall.upsert w ∈ t.calls)
    (hwrites : ∀ keys, .deleteMany keys ∈ s.writes → .deleteMany keys ∈ t.writes) :
    t.Covered key w := by
  rcases h with hstored | hawaited
  · exact Or.inl (by rw [Stored, htable]; exact hstored)
  · exact Or.inr (hawaited.mono hcalls hwrites)

theorem Inv.of_calls (h : s.Inv) (hcache : t.cacheService.entries = s.cacheService.entries)
    (htable : t.table = s.table)
    (hcalls : ∀ w, WebhookCall.upsert w ∈ s.calls → WebhookCall.upsert w ∈ t.calls)
    (hwrites : ∀ keys, .deleteMany keys ∈ s.writes → .deleteMany keys ∈ t.writes)
    (hset : ∀ key w, .set key w ∈ t.calls → .set key w ∈ s.calls ∨ KeyOf key w)
    (hsetMany : ∀ keysValues, .setMany keysValues ∈ t.writes →
      .setMany keysValues ∈ s.writes ∨ ∀ e ∈ keysValues, KeyOf e.1 e.2) : t.Inv where
  covered := by
    intro key w hget
    rw [hcache] at hget
    obtain ⟨hkey, hcovered⟩ := h.covered key w hget
    exact ⟨hkey, hcovered.mono htable (hcalls w) hwrites⟩
  set := fun key w hw => (hset key w hw).elim (h.set key w) id
  setMany := fun keysValues hw => (hsetMany keysValues hw).elim (h.setMany keysValues) id

variable {i : ℕ}

theorem mem_eraseIdx_of_ne {α : Type} {as : List α} {a b : α} (hi : as[i]? = some a)
    (hb : b ∈ as) (hne : b ≠ a) : b ∈ as.eraseIdx i := by
  obtain ⟨j, hj⟩ := List.mem_iff_getElem?.mp hb
  refine List.mem_eraseIdx_iff_getElem?.mpr ⟨j, ?_, hj⟩
  rintro rfl
  rw [hi, Option.some.injEq] at hj
  exact hne hj.symm

variable {call : WebhookCall}

theorem Covered.others (h : s.Covered key w)
    (hi : s.calls[i]? = some call) (hcall : call ≠ .upsert w) : (s.others i).Covered key w :=
  h.mono rfl (fun hw => mem_eraseIdx_of_ne hi hw hcall.symm) fun _ => id

variable {write : DetachedWrite}

theorem Covered.otherWrites {j : ℕ} (h : s.Covered key w)
    (hj : s.writes[j]? = some write) (hwrite : ∀ keys, write = .deleteMany keys → key ∉ keys) :
    (s.otherWrites j).Covered key w := by
  rcases h with hstored | ⟨_, hmem, keys, rfl, hkey⟩ | hupsert
  · exact Or.inl hstored
  · refine Or.inr (Or.inl ⟨_, mem_eraseIdx_of_ne hj hmem ?_, keys, rfl, hkey⟩)
    rintro rfl
    exact hwrite keys rfl hkey
  · exact Or.inr (Or.inr hupsert)

theorem Inv.others (h : s.Inv) (hi : s.calls[i]? = some call)
    (hcall : ∀ w, call ≠ .upsert w) : (s.others i).Inv :=
  h.of_calls rfl rfl (fun w hw => mem_eraseIdx_of_ne hi hw (hcall w).symm) (fun _ => id)
    (fun _ _ hw => Or.inl (List.mem_of_mem_eraseIdx hw)) fun _ => Or.inl

theorem Inv.await (h : s.Inv)
    (hcall : ∀ key w, call = .set key w → KeyOf key w) : (s.await call).Inv := by
  refine h.of_calls rfl rfl (fun w hw => List.mem_append_left _ hw) (fun _ => id) ?_
    fun _ => Or.inl
  intro key w hw
  rcases List.mem_append.mp hw with hw | hw
  · exact Or.inl hw
  · exact Or.inr (hcall key w (List.mem_singleton.mp hw).symm)

theorem Inv.detach (h : s.Inv)
    (hwrite : ∀ keysValues, write = .setMany keysValues → ∀ e ∈ keysValues, KeyOf e.1 e.2) :
    (s.detach write).Inv := by
  refine h.of_calls rfl rfl (fun _ => id) (fun keys hw => List.mem_append_left _ hw)
    (fun _ _ => Or.inl) ?_
  intro keysValues hw
  rcases List.mem_append.mp hw with hw | hw
  · exact Or.inl hw
  · exact Or.inr (hwrite keysValues (List.mem_singleton.mp hw).symm)

theorem Inv.setEntries {entries : Dict String WebhookEntity} (h : s.Inv)
    (hentries : ∀ key w, entries.get? key = some w →
      s.cacheService.entries.get? key = some w ∨ KeyOf key w ∧ s.Covered key w) :
    (s.setEntries entries).Inv where
  covered := fun key w hw => (hentries key w hw).elim (h.covered key w) id
  set := h.set
  setMany := h.setMany

theorem cacheSet_eq : s.cacheSet key w = if s.cacheService.available = true then
    s.setEntries (s.cacheService.entries.set key w) else s := by
  rw [cacheSet, CacheService.set]
  by_cases havailable : s.cacheService.available = true
  · rw [if_pos havailable, if_pos havailable]
    rfl
  · rw [if_neg havailable, if_neg havailable]

theorem Inv.cacheSet (h : s.Inv)
    (hcovered : s.cacheService.available = true → KeyOf key w ∧ s.Covered key w) :
    (s.cacheSet key w).Inv := by
  rw [cacheSet_eq]
  split
  · rename_i havailable
    refine h.setEntries fun k v hv => ?_
    rw [Dict.get?_set] at hv
    split at hv
    · rename_i hk
      cases hv
      rw [hk]
      exact Or.inr (hcovered havailable)
    · exact Or.inl hv
  · exact h

theorem cacheSet_await :
    (s.cacheSet key w).await call = (s.await call).cacheSet key w := by
  rw [cacheSet_eq, cacheSet_eq, apply_ite (WebhookStore.await · call)]
  rfl

theorem Inv.resume {upsertFails : Bool} (h : s.Inv)
    (hi : s.calls[i]? = some call) (hwell : s.ResumesWell i upsertFails call) :
    ((s.others i).resume upsertFails call).Inv := by
  cases call with
  | get method path =>
    have ho := h.others hi fun w => by simp
    rw [WebhookStore.resume]
    split
    · exact ho
    · exact ho.await fun _ _ heq => by cases heq
  | findOneBy method path =>
    have ho := h.others hi fun w => by simp
    rw [WebhookStore.resume]
    split
    · rename_i row hrow
      refine ho.await fun key w heq => ?_
      cases heq
      -- the row is found under its own path and method
      have hkey := s.table.keyed _ _ hrow
      rw [WebhookEntity.primaryKey, Prod.mk.injEq] at hkey
      exact Or.inr (by rw [hkey.1, hkey.2])
    · exact ho.await fun _ _ heq => by cases heq
  | set cacheKey row =>
    have hne : ∀ w, WebhookCall.set cacheKey row ≠ .upsert w := fun w => by simp
    refine (h.others hi hne).cacheSet fun havailable => ?_
    exact ⟨h.set cacheKey row (List.mem_of_getElem? hi), (hwell havailable).others hi (hne row)⟩
  | findBy method path => exact h.others hi fun w => by simp
  | setStored webhook =>
    have ho := h.others hi fun w => by simp
    rw [WebhookStore.resume, cacheSet_await]
    refine (ho.await fun _ _ heq => by cases heq).cacheSet fun _ => ⟨Or.inl rfl, Or.inr (Or.inr ?_)⟩
    exact ⟨List.mem_append_right _ (List.mem_singleton_self _), rfl⟩
  | upsert webhook =>
    have hother : ∀ key w, s.cacheService.entries.get? key = some w →
        w.primaryKey ≠ webhook.primaryKey → (s.others i).Covered key w := by
      intro key w hget hne
      refine (h.covered key w hget).2.others hi ?_
      rintro heq
      cases heq
      exact hne rfl
    have hcalls : ∀ key w, .set key w ∈ (s.others i).calls → KeyOf key w :=
      fun key w hw => h.set key w (List.mem_of_mem_eraseIdx hw)
    rw [WebhookStore.resume]
    split
    · rename_i hfails
      refine ⟨fun key w hget => ⟨(h.covered key w hget).1, ?_⟩, hcalls, h.setMany⟩
      by_cases hw : w = webhook
      · have hcond := hwell (key, w) (Dict.mem_entries_iff.mpr hget) (by rw [hw])
        rw [if_pos hfails] at hcond
        exact hcond hw
      · refine (h.covered key w hget).2.others hi fun heq => ?_
        cases heq
        exact hw rfl
    · rename_i hfails
      refine ⟨fun key w hget => ⟨(h.covered key w hget).1, ?_⟩, hcalls, h.setMany⟩
      by_cases hkey : w.primaryKey = webhook.primaryKey
      · have hcond := hwell (key, w) (Dict.mem_entries_iff.mpr hget) hkey
        rw [if_neg hfails] at hcond
        refine hcond.imp (fun hw => ?_) fun hawaited => hawaited.mono id fun _ => id
        rw [Stored, WebhookTable.get?_upsert, if_pos hkey]
        exact congrArg some hw.symm
      · refine (hother key w hget hkey).imp (fun hstored => ?_)
          fun hawaited => hawaited.mono id fun _ => id
        rw [Stored, WebhookTable.get?_upsert, if_neg hkey]
        exact hstored
  | findWorkflow workflowId =>
    have ho := h.others hi fun w => by simp
    exact (ho.detach fun _ heq => by cases heq).await fun _ _ heq => by cases heq
  | remove webhooks =>
    have hne : ∀ w, WebhookCall.remove webhooks ≠ .upsert w := fun w => by simp
    have ho := h.others hi hne
    refine ⟨fun key w hget => ⟨(h.covered key w hget).1, ?_⟩, ho.set, ho.setMany⟩
    by_cases hkey : w.primaryKey ∈ webhooks.map (·.primaryKey)
    · have hawaited := hwell (key, w) (Dict.mem_entries_iff.mpr hget) hkey
      exact Or.inr (hawaited.mono (fun hw => mem_eraseIdx_of_ne hi hw (hne w).symm) fun _ => id)
    · refine ((h.covered key w hget).2.others hi (hne w)).imp (fun hstored => ?_)
        fun hawaited => hawaited.mono id fun _ => id
      rw [Stored, WebhookStore.resume, WebhookTable.get?_remove, if_neg hkey]
      exact hstored
  | getStaticWebhooks =>
    have ho := h.others hi fun w => by simp
    rw [WebhookStore.resume]
    split
    · exact ho
    · refine ho.detach fun keysValues heq e he => ?_
      cases heq
      obtain ⟨w, -, rfl⟩ := List.mem_map.mp he
      exact Or.inl rfl

theorem Inv.execute {j : ℕ} (h : s.Inv) (hj : s.writes[j]? = some write)
    (hwell : s.ExecutesWell j write) : ((s.otherWrites j).execute write).Inv := by
  have hsetMany : ∀ keysValues, .setMany keysValues ∈ (s.otherWrites j).writes →
      ∀ e ∈ keysValues, KeyOf e.1 e.2 :=
    fun keysValues hw => h.setMany keysValues (List.mem_of_mem_eraseIdx hw)
  cases write with
  | setMany keysValues =>
    have hother : ∀ key w, s.Covered key w → (s.otherWrites j).Covered key w :=
      fun key w hcovered => hcovered.otherWrites hj fun _ heq => by cases heq
    rw [WebhookStore.execute]
    split
    · rename_i havailable
      refine ⟨fun key w hget => ?_, h.set, hsetMany⟩
      rcases Dict.get?_setAll_cases hget with hmem | ⟨hold, -⟩
      · exact ⟨h.setMany keysValues (List.mem_of_getElem? hj) _ hmem,
          hother key w (hwell havailable _ hmem)⟩
      · exact ⟨(h.covered key w hold).1, hother key w (h.covered key w hold).2⟩
    · exact ⟨fun key w hget => ⟨(h.covered key w hget).1, hother key w (h.covered key w hget).2⟩,
        h.set, hsetMany⟩
  | deleteMany keys =>
    have hother : ∀ key w, s.cacheService.entries.get? key = some w → key ∉ keys →
        KeyOf key w ∧ (s.otherWrites j).Covered key w := by
      intro key w hget hkey
      obtain ⟨hkeyOf, hcovered⟩ := h.covered key w hget
      refine ⟨hkeyOf, hcovered.otherWrites hj fun _ heq => ?_⟩
      cases heq
      exact hkey
    rw [WebhookStore.execute]
    split
    · refine ⟨fun key w hget => ?_, h.set, hsetMany⟩
      have herased : (s.cacheService.entries.eraseAll keys).get? key = some w := hget
      rw [Dict.get?_eraseAll] at herased
      split at herased
      · cases herased
      · rename_i hkey
        exact hother key w herased hkey
    · rename_i havailable
      refine ⟨fun key w hget => ?_, h.set, hsetMany⟩
      by_cases hkey : key ∈ keys
      · exact ⟨(h.covered key w hget).1, hwell (Bool.not_eq_true _ ▸ havailable) (key, w)
          (Dict.mem_entries_iff.mpr hget) hkey⟩
      · exact hother key w hget hkey

/-- Step lemma: every undisturbed turn keeps the invariant. -/
theorem Inv.step {input : WebhookInput} (h : s.Inv) (hwell : s.Undisturbed input)
    (hstep : s.step input = .ok t) : t.Inv := by
  cases input with
  | proceed i upsertFails =>
    rw [WebhookStore.step] at hstep
    rcases hi : s.calls[i]? with _ | call
    · rw [hi] at hstep
      cases hstep
    · rw [hi] at hstep
      cases hstep
      exact h.resume hi (hwell call hi)
  | write j =>
    rw [WebhookStore.step] at hstep
    rcases hj : s.writes[j]? with _ | write
    · rw [hj] at hstep
      cases hstep
    · rw [hj] at hstep
      cases hstep
      exact h.execute hj (hwell write hj)
  | setAvailable available =>
    cases hstep
    exact ⟨h.covered, h.set, h.setMany⟩
  | evict key =>
    cases hstep
    exact h.setEntries fun k v hv => Or.inl (Dict.get?_of_get?_erase hv)
  | _ =>
    cases hstep
    exact h.await fun _ _ heq => by cases heq

end Invariant

/-- **The cache never outlives the rows** along undisturbed runs: whenever nothing is in
progress, what is cached is stored. -/
theorem consistent_of_quiet (table : WebhookTable) (inputs : List WebhookInput)
    (h : Along step (fun s input _ => s.Undisturbed input) (start table) inputs) :
    Along step (fun _ _ s' => s'.Quiet → s'.Consistent) (start table) inputs := by
  refine Along.of_step (I := Inv) ?_ (Inv.initial table) h
  intro s input s' hs hstep hwell
  have hs' := hs.step hwell hstep
  exact ⟨hs'.consistent, hs'⟩

def storedFoundDeleted (w : WebhookEntity) : List WebhookInput :=
  [.storeWebhook w, .proceed 0 false, .proceed 0 false, .findWebhook w.method w.webhookPath,
    .proceed 0 false, .evict w.cacheKey, .findWebhook w.method w.webhookPath, .proceed 0 false,
    .proceed 0 false, .deleteWorkflowWebhooks w.workflowId, .proceed 0 false, .proceed 0 false,
    .proceed 0 false, .write 0]

def orders : WebhookEntity :=
  { workflowId := "w1", webhookPath := "orders", method := .GET, node := "Webhook" }

theorem consistent_of_quiet_orders : Along step (fun _ _ s' => s'.Quiet → s'.Consistent)
    (start .empty) (storedFoundDeleted orders) :=
  consistent_of_quiet .empty (storedFoundDeleted orders) (by decide)

/-- A lookup has read the row when the workflow is deactivated, and caches it afterwards. -/
theorem not_consistent_of_quiet_lateSet : ¬ ∀ (table : WebhookTable) (inputs : List WebhookInput),
    Along step (fun _ _ s' => s'.Quiet → s'.Consistent) (start table) inputs := by
  intro h
  obtain ⟨s, hrun, hquiet, hcached, hgone⟩ : ∃ s,
      runInputs step (start (WebhookTable.empty.upsert orders)) [.findWebhook .GET "orders",
        .proceed 0 false, .proceed 0 false, .deleteWorkflowWebhooks "w1", .proceed 1 false,
        .write 0, .proceed 1 false, .proceed 0 false] = .ok s ∧ s.Quiet ∧
      s.cacheService.entries.get? orders.cacheKey = some orders ∧
      s.table.rows.get? orders.primaryKey = none :=
    ⟨_, rfl, ⟨rfl, rfl⟩, by decide, by decide⟩
  have hconsistent := Along.last (P := fun s : WebhookStore => s.Quiet → s.Consistent)
    (fun _ _ _ hget => by cases hget) (h _ _) hrun hquiet
  rw [(hconsistent _ _ hcached).1] at hgone
  cases hgone

end WebhookStore

end N8n
