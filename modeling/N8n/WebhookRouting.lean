/-
When webhooks are routed exactly.

A request is to go to the row with its method and path, or else to a row with parameters
that its path fits segment by segment, with as many static segments as any such row has; and
the parameters, put back into the pattern, are to give the path.  The service looks for
static segments anywhere in the path, so it may take a row that the path does not fit.

* **`exactlyRouted_iff`** — the service routes a request exactly iff it is routable.
-/
import N8n.WebhookService

namespace N8n

open PathPattern

namespace WebhookEntity

/-- A row without parameters, of this method and this path. -/
def IsStaticFor (w : WebhookEntity) (method : IHttpRequestMethods) (path : String) : Prop :=
  w.webhookId = none ∧ w.method = method ∧ w.webhookPath = path

/-- A row with parameters that the request fits, after the segment with its id. -/
def Matches (w : WebhookEntity) (method : IHttpRequestMethods) (path : String) : Prop :=
  w.method = method ∧ w.webhookId = (segments path).head? ∧
    Fits (segments w.webhookPath) (segments path).tail

instance (w : WebhookEntity) (method : IHttpRequestMethods) (path : String) :
    Decidable (w.IsStaticFor method path) :=
  inferInstanceAs (Decidable (_ ∧ _ ∧ _))

instance (w : WebhookEntity) (method : IHttpRequestMethods) (path : String) :
    Decidable (w.Matches method path) :=
  inferInstanceAs (Decidable (_ ∧ _ ∧ _))

end WebhookEntity

/-- The result is the static row, or else a row that matches, with most static segments; it
is nothing iff there is neither. -/
structure RoutedExactly (rows : List WebhookEntity) (method : IHttpRequestMethods) (path : String)
    (result : Option WebhookEntity) : Prop where
  static : ∀ w ∈ rows, w.IsStaticFor method path → result = some w
  dynamic : (∀ w ∈ rows, ¬ w.IsStaticFor method path) → ∀ w, result = some w →
    w ∈ rows ∧ w.Matches method path ∧ ∀ other ∈ rows, other.Matches method path →
      other.staticSegments.length ≤ w.staticSegments.length
  missing : result = none ↔
    (∀ w ∈ rows, ¬ w.IsStaticFor method path) ∧ ∀ w ∈ rows, ¬ w.Matches method path

/-- The id and the segments of the row, their parameters replaced by the values, are the
segments of the path. -/
def Reproduces (w : WebhookEntity) (params : LiveWebhooks.Params) (path : String) : Prop :=
  w.webhookId.toList.map some ++ (segments w.webhookPath).map (fill params)
    = (segments path).map some

/-- The request is routed exactly, and its parameters give its path back, whether it had a
slash at its end or not. -/
def ExactlyRouted (s : WebhookService) (method : IHttpRequestMethods) (path : String) : Prop :=
  RoutedExactly s.webhookRepository.rows method path (s.findWebhook method path).1 ∧
    ∀ requestPath, LiveWebhooks.removeTrailingSlash requestPath = path → ∀ w params,
      LiveWebhooks.executeWebhook s method requestPath = some (w, params) →
        Reproduces w params path

def Foremost (rows : List WebhookEntity) (w : WebhookEntity) : Prop :=
  w ∈ rows ∧ (∀ other ∈ rows, other.staticSegments.length ≤ w.staticSegments.length) ∧
    ∀ other ∈ rows, w.staticSegments.length ≤ other.staticSegments.length →
      rows.idxOf w ≤ rows.idxOf other

/-- The rows with the id and the number of segments of the request, all of whose static
segments occur in it somewhere. -/
def contenders (r : WebhookRepository) (method : IHttpRequestMethods) (path : String) :
    List WebhookEntity :=
  (r.findBy (segments path).head? method (segments path).tail.length).filter
    (allStaticSegmentsMatch (segments path).tail)

/-- A cached row that is taken for its own path has no parameter.  One that is taken for
its unique path has an id of one segment, there is no static row beside it, and it can be
bound. -/
def RoutableToCached (r : WebhookRepository) (method : IHttpRequestMethods) (path : String)
    (w : WebhookEntity) : Prop :=
  if w.webhookPath = path then w.isDynamic = false
  else (∃ id ∈ w.webhookId, '/' ∉ id.toList) ∧
    (∀ other ∈ r.rows, ¬ other.IsStaticFor method path) ∧
    Bindable "__proto__" (segments w.webhookPath) (segments path).tail

/-- A stored row with the path of the request has no parameter.  If there is none, the
foremost of the contenders has its static segments in their places, and can be bound. -/
def RoutableToStored (r : WebhookRepository) (method : IHttpRequestMethods) (path : String) :
    Prop :=
  (∀ w ∈ r.rows, w.method = method → w.webhookPath = path → w.isDynamic = false) ∧
  ((∀ w ∈ r.rows, w.method = method → w.webhookPath ≠ path) →
    ∀ w, Foremost (contenders r method path) w →
      Fits (segments w.webhookPath) (segments path).tail ∧
        Bindable "__proto__" (segments w.webhookPath) (segments path).tail)

def Routable (s : WebhookService) (method : IHttpRequestMethods) (path : String) : Prop :=
  match s.cached method path with
  | some w => RoutableToCached s.webhookRepository method path w
  | none => RoutableToStored s.webhookRepository method path

def Binds (w : WebhookEntity) (path : String) : Prop :=
  ∀ requestPath, LiveWebhooks.removeTrailingSlash requestPath = path →
    Reproduces w (LiveWebhooks.bindParams w requestPath) path

theorem exactlyRouted_iff_binds (s : WebhookService) (method : IHttpRequestMethods)
    (path : String) : ExactlyRouted s method path ↔
      RoutedExactly s.webhookRepository.rows method path (s.findWebhook method path).1 ∧
        ∀ w, (s.findWebhook method path).1 = some w → Binds w path := by
  refine and_congr_right fun _ => ?_
  constructor
  · intro h w hw requestPath hpath
    refine h requestPath hpath w _ ?_
    rw [LiveWebhooks.executeWebhook, LiveWebhooks.findWebhook, hpath, hw]
    rfl
  · intro h requestPath hpath w params hrequest
    rw [LiveWebhooks.executeWebhook, LiveWebhooks.findWebhook, hpath] at hrequest
    obtain ⟨_, hw, heq⟩ := Option.map_eq_some_iff.mp hrequest
    cases heq
    exact h w hw requestPath hpath

variable {w : WebhookEntity}

theorem binds_iff (hdynamic : w.isDynamic = true) {id path : String}
    (hid : w.webhookId = some id) {rest : List String} (hpath : segments path = id :: rest)
    (hfits : Fits (segments w.webhookPath) rest) :
    Binds w path ↔ Bindable "__proto__" (segments w.webhookPath) rest := by
  have hreproduces : ∀ requestPath, LiveWebhooks.removeTrailingSlash requestPath = path →
      (Reproduces w (LiveWebhooks.bindParams w requestPath) path ↔
        Bindable "__proto__" (segments w.webhookPath) rest) := by
    intro requestPath hrequest
    obtain ⟨more, hmore, -⟩ := LiveWebhooks.segments_of_removeTrailingSlash requestPath
    rw [hrequest, hpath] at hmore
    rw [← fill_iff hfits more, Reproduces, LiveWebhooks.bindParams_eq hdynamic, hmore, hid, hpath]
    exact List.cons_inj_right (some id)
  constructor
  · intro h
    have hslash := LiveWebhooks.removeTrailingSlash_append path
    exact (hreproduces _ hslash).mp (h _ hslash)
  · exact fun h requestPath hrequest => (hreproduces requestPath hrequest).mpr h

theorem binds_self_iff (hid : w.webhookId = none) :
    Binds w w.webhookPath ↔ w.isDynamic = false := by
  constructor
  · intro h
    by_contra hdynamic
    have hdynamic : w.isDynamic = true := by simpa using hdynamic
    have hslash := LiveWebhooks.removeTrailingSlash_append w.webhookPath
    obtain ⟨more, hmore, hstatic⟩ :=
      LiveWebhooks.segments_of_removeTrailingSlash (w.webhookPath ++ "/")
    rw [hslash] at hmore
    have hself := h _ hslash
    rw [Reproduces, LiveWebhooks.bindParams_eq hdynamic, hid, hmore] at hself
    refine fill_shifted_ne (List.any_eq_true.mp hdynamic) hstatic hself
  · intro hstatic requestPath _
    have hfill : ∀ segment ∈ segments w.webhookPath,
        fill (LiveWebhooks.bindParams w requestPath) segment = some segment := by
      intro segment hsegment
      rw [fill, if_neg (List.any_eq_false.mp hstatic segment hsegment)]
    rw [Reproduces, hid, List.map_congr_left hfill]
    rfl

section

variable {r : WebhookRepository} {method : IHttpRequestMethods} {path : String}
  {w : WebhookEntity}

theorem head?_segments_ne_none (path : String) : (segments path).head? ≠ none := by
  rw [ne_eq, List.head?_eq_none_iff]
  exact segments_ne_nil path

theorem WebhookEntity.Matches.dynamic (h : w.Matches method path) (hw : w ∈ r.rows) :
    w.isDynamic = true ∧ w.pathLength = some (segments path).tail.length := by
  have hwf := r.wellFormed w hw
  rw [WebhookEntity.WellFormed] at hwf
  split at hwf
  · rename_i hid
    exact absurd (h.2.1.symm.trans hid) (head?_segments_ne_none path)
  · exact ⟨hwf.1, hwf.2.trans (congrArg some h.2.2.length_eq)⟩

theorem not_matches_self (w : WebhookEntity) : ¬ w.Matches w.method w.webhookPath := by
  intro h
  have hlength := h.2.2.length_eq
  rw [List.length_tail] at hlength
  have hpos := List.length_pos_of_ne_nil (segments_ne_nil w.webhookPath)
  omega

theorem exact_self_iff (hw : w ∈ r.rows) (hmethod : w.method = method)
    (hpath : w.webhookPath = path) :
    RoutedExactly r.rows method path (some w) ∧ Binds w path ↔ w.isDynamic = false := by
  have hsame : ∀ other ∈ r.rows, other.IsStaticFor method path → other = w := fun other ho h =>
    r.eq_of_key ho hw (h.2.2.trans hpath.symm) (h.2.1.trans hmethod.symm)
  constructor
  · rintro ⟨hexact, hbinds⟩
    cases hid : w.webhookId with
    | none =>
      rw [← hpath] at hbinds
      exact (binds_self_iff hid).mp hbinds
    | some id =>
      -- a row with an id is not static, and it does not match its own path
      have hnone : ∀ other ∈ r.rows, ¬ other.IsStaticFor method path := by
        intro other ho h
        rw [hsame other ho h] at h
        exact absurd (hid.symm.trans h.1) (Option.some_ne_none id)
      have hmatch := (hexact.dynamic hnone w rfl).2.1
      rw [← hpath, ← hmethod] at hmatch
      exact absurd hmatch (not_matches_self w)
  · intro hstatic
    have hid : w.webhookId = none := by
      have hwf := r.wellFormed w hw
      rw [WebhookEntity.WellFormed] at hwf
      split at hwf
      · assumption
      · rw [hstatic] at hwf
        cases hwf.1
    have hfor : w.IsStaticFor method path := ⟨hid, hmethod, hpath⟩
    refine ⟨⟨fun other ho h => congrArg some (hsame other ho h).symm, ?_, ?_⟩, ?_⟩
    · exact fun hnone => absurd hfor (hnone w hw)
    · exact iff_of_false (Option.some_ne_none w) fun h => h.1 w hw hfor
    · rw [← hpath]
      exact (binds_self_iff hid).mpr hstatic

theorem exact_other_iff (hw : w ∈ r.rows) (hpath : w.webhookPath ≠ path)
    (hgreatest : w.Matches method path → ∀ other ∈ r.rows, other.Matches method path →
      other.staticSegments.length ≤ w.staticSegments.length) :
    RoutedExactly r.rows method path (some w) ∧ Binds w path ↔
      (w.Matches method path ∧ ∀ other ∈ r.rows, ¬ other.IsStaticFor method path) ∧
        Bindable "__proto__" (segments w.webhookPath) (segments path).tail := by
  have hbinds : w.Matches method path →
      (Binds w path ↔ Bindable "__proto__" (segments w.webhookPath) (segments path).tail) := by
    intro hmatch
    obtain ⟨id, hid⟩ := Option.ne_none_iff_exists'.mp (head?_segments_ne_none path)
    refine binds_iff (hmatch.dynamic hw).1 (hmatch.2.1.trans hid) ?_ hmatch.2.2
    exact (List.cons_head?_tail hid).symm
  constructor
  · rintro ⟨hexact, hb⟩
    have hnone : ∀ other ∈ r.rows, ¬ other.IsStaticFor method path := by
      intro other ho h
      have heq := hexact.static other ho h
      rw [Option.some.injEq] at heq
      exact hpath (heq ▸ h.2.2)
    have hmatch := (hexact.dynamic hnone w rfl).2.1
    exact ⟨⟨hmatch, hnone⟩, (hbinds hmatch).mp hb⟩
  · rintro ⟨⟨hmatch, hnone⟩, hbindable⟩
    refine ⟨⟨fun other ho h => absurd h (hnone other ho), ?_, ?_⟩, (hbinds hmatch).mpr hbindable⟩
    · rintro - w' heq
      cases heq
      exact ⟨hw, hmatch, hgreatest hmatch⟩
    · exact iff_of_false (Option.some_ne_none w) fun h => h.2 w hw hmatch

theorem segments_uniquePath (hpath : w.webhookPath ≠ path) (hunique : path = w.uniquePath)
    {id : String} (hid : w.webhookId = some id) (hslash : '/' ∉ id.toList) :
    segments path = id :: segments w.webhookPath := by
  rw [WebhookEntity.uniquePath] at hunique
  split at hunique
  · rw [hunique, hid, Option.getD_some, segments_join hslash]
  · exact absurd hunique.symm hpath

theorem matches_uniquePath_iff (hpath : w.webhookPath ≠ path) (hunique : path = w.uniquePath) :
    w.Matches w.method path ↔ ∃ id ∈ w.webhookId, '/' ∉ id.toList := by
  constructor
  · intro hmatch
    obtain ⟨id, hid⟩ := Option.ne_none_iff_exists'.mp (head?_segments_ne_none path)
    exact ⟨id, hmatch.2.1.trans hid, slash_not_mem _ (List.mem_of_head? hid)⟩
  · rintro ⟨id, hid, hslash⟩
    rw [WebhookEntity.Matches, segments_uniquePath hpath hunique hid hslash]
    exact ⟨rfl, hid, Fits.refl _⟩

theorem exact_cached_iff (hw : w ∈ r.rows) (hkey : path = w.webhookPath ∨ path = w.uniquePath) :
    RoutedExactly r.rows w.method path (some w) ∧ Binds w path ↔
      RoutableToCached r w.method path w := by
  rw [RoutableToCached]
  split
  · rename_i hpath
    exact exact_self_iff hw rfl hpath
  · rename_i hpath
    have hunique := hkey.resolve_left (Ne.symm hpath)
    have hmatches := matches_uniquePath_iff hpath hunique
    rw [exact_other_iff hw hpath, hmatches, and_assoc]
    -- the segments of the request are those of the row, so no other row has more that fit
    intro hmatch other _ hother
    obtain ⟨id, hid, hslash⟩ := hmatches.mp hmatch
    have hfits := hother.2.2
    rw [segments_uniquePath hpath hunique hid hslash] at hfits
    exact hfits.length_statics_le

theorem findDynamicWebhook_eq_some_iff :
    findDynamicWebhook r path method = some w ↔ Foremost (contenders r method path) w := by
  rw [findDynamicWebhook, WebhookMatch.foldl_next, contenders, Foremost]
  exact List.argmax_eq_some_iff

theorem findDynamicWebhook_eq_none_iff :
    findDynamicWebhook r path method = none ↔ contenders r method path = [] := by
  rw [findDynamicWebhook, WebhookMatch.foldl_next, contenders]
  exact List.argmax_eq_none

theorem mem_contenders : w ∈ contenders r method path ↔
    w ∈ r.rows ∧ (w.webhookId = (segments path).head? ∧ w.method = method ∧
      w.pathLength = some (segments path).tail.length) ∧
        allStaticSegmentsMatch (segments path).tail w = true := by
  rw [contenders, WebhookRepository.findBy, List.mem_filter, List.mem_filter, and_assoc]
  simp only [decide_eq_true_eq]

theorem WebhookEntity.Matches.mem_contenders (h : w.Matches method path) (hw : w ∈ r.rows) :
    w ∈ contenders r method path := by
  refine N8n.mem_contenders.mpr ⟨hw, ⟨h.2.1, h.1, (h.dynamic hw).2⟩, ?_⟩
  rw [allStaticSegmentsMatch, List.all_eq_true]
  exact fun segment hsegment => decide_eq_true (h.2.2.mem_of_mem_statics hsegment)

theorem exact_found_iff (hfound : r.findOneBy path method = some w) :
    RoutedExactly r.rows method path (some w) ∧ Binds w path ↔
      RoutableToStored r method path := by
  obtain ⟨hpath, hmethod⟩ : w.webhookPath = path ∧ w.method = method := by
    simpa using List.find?_some hfound
  have hw : w ∈ r.rows := List.mem_of_find?_eq_some hfound
  rw [exact_self_iff hw hmethod hpath]
  constructor
  · intro hstatic
    refine ⟨fun other ho homethod hopath => ?_, fun hnone => absurd hpath (hnone w hw hmethod)⟩
    rw [r.eq_of_key ho hw (hopath.trans hpath.symm) (homethod.trans hmethod.symm)]
    exact hstatic
  · exact fun h => h.1 w hw hmethod hpath

theorem exact_foremost_iff (hnopath : ∀ w ∈ r.rows, w.method = method → w.webhookPath ≠ path)
    (hfound : findDynamicWebhook r path method = some w) :
    RoutedExactly r.rows method path (some w) ∧ Binds w path ↔
      RoutableToStored r method path := by
  have hforemost := findDynamicWebhook_eq_some_iff.mp hfound
  obtain ⟨hw, ⟨hid, hmethod, -⟩, -⟩ := mem_contenders.mp hforemost.1
  rw [exact_other_iff hw (hnopath w hw hmethod) fun _ other ho hother =>
    hforemost.2.1 other (hother.mem_contenders ho)]
  constructor
  · rintro ⟨⟨hmatch, -⟩, hbindable⟩
    refine ⟨fun w' hw' hm hp => absurd hp (hnopath w' hw' hm), fun _ w' hforemost' => ?_⟩
    -- there is one foremost row
    have heq := findDynamicWebhook_eq_some_iff.mpr hforemost'
    rw [hfound, Option.some.injEq] at heq
    rw [← heq]
    exact ⟨hmatch.2.2, hbindable⟩
  · rintro ⟨-, hplaces⟩
    obtain ⟨hfits, hbindable⟩ := hplaces hnopath w hforemost
    exact ⟨⟨⟨hmethod, hid, hfits⟩, fun other ho h => hnopath other ho h.2.1 h.2.2⟩, hbindable⟩

theorem exact_missing (hnopath : ∀ w ∈ r.rows, w.method = method → w.webhookPath ≠ path)
    (hempty : contenders r method path = []) :
    RoutedExactly r.rows method path none ∧ RoutableToStored r method path := by
  have hnone : ∀ w ∈ r.rows, ¬ w.IsStaticFor method path :=
    fun w hw h => hnopath w hw h.2.1 h.2.2
  refine ⟨⟨fun w hw h => absurd h (hnone w hw), fun _ _ h => (by cases h), ?_⟩, ?_, ?_⟩
  · refine iff_of_true rfl ⟨hnone, fun w hw h => ?_⟩
    have hmem := h.mem_contenders hw
    rw [hempty] at hmem
    cases hmem
  · exact fun w hw hmethod hpath => absurd hpath (hnopath w hw hmethod)
  · intro _ w hforemost
    rw [hempty] at hforemost
    cases hforemost.1

theorem exact_stored_iff : RoutedExactly r.rows method path
      ((r.findOneBy path method).or (findDynamicWebhook r path method)) ∧
        (∀ w, (r.findOneBy path method).or (findDynamicWebhook r path method) = some w →
          Binds w path) ↔
    RoutableToStored r method path := by
  have hone : ∀ w : WebhookEntity, (∀ w', some w = some w' → Binds w' path) ↔ Binds w path := by
    simp
  cases hfound : r.findOneBy path method with
  | some w =>
    rw [Option.some_or, hone]
    exact exact_found_iff hfound
  | none =>
    have hnopath : ∀ w ∈ r.rows, w.method = method → w.webhookPath ≠ path := by
      intro w hw hmethod hpath
      have hnot := List.find?_eq_none.mp hfound w hw
      simp [hmethod, hpath] at hnot
    cases hdynamic : findDynamicWebhook r path method with
    | some w =>
      rw [Option.none_or, hone]
      exact exact_foremost_iff hnopath hdynamic
    | none =>
      obtain ⟨hrouted, hroutable⟩ :=
        exact_missing hnopath (findDynamicWebhook_eq_none_iff.mp hdynamic)
      exact iff_of_true ⟨hrouted, fun _ h => by cases h⟩ hroutable

end

/-- **When a request is routed exactly.**  Whatever the rows and the cache are, a request is
routed exactly iff it is routable. -/
theorem exactlyRouted_iff (s : WebhookService) (method : IHttpRequestMethods) (path : String) :
    ExactlyRouted s method path ↔ Routable s method path := by
  rw [exactlyRouted_iff_binds, s.findWebhook_eq, Routable]
  cases hcached : s.cached method path with
  | some w =>
    obtain ⟨hw, rfl, hkey⟩ := WebhookService.cached_spec hcached
    have hone : (∀ w', some w = some w' → Binds w' path) ↔ Binds w path := by simp
    rw [Option.some_or, hone]
    exact exact_cached_iff hw hkey
  | none =>
    rw [Option.none_or]
    exact exact_stored_iff

def userById : WebhookService where
  webhookRepository := {
    rows := [{ workflowId := "1", webhookPath := "user/:id", method := .GET, node := "Webhook",
               webhookId := some "uuid", pathLength := some 2 }]
    nodup := by decide
    wellFormed := by decide }
  consistent := .empty _

example : (LiveWebhooks.executeWebhook userById .GET "uuid/user/7/").map (·.2.entries)
    = some [("id", some "7")] := by decide

/-- The static segment stands in the place of the parameter: no row fits the request, but
one is found. -/
theorem not_exactlyRouted_permuted : ¬ ExactlyRouted userById .GET "uuid/7/user" := by
  intro h
  have hmissing : (userById.findWebhook .GET "uuid/7/user").1 = none :=
    h.1.missing.mpr ⟨by decide, by decide⟩
  exact absurd hmissing (by decide)

end N8n
