/-
Masks over values of the host language.

A mask walks down a value and replaces some of what it finds.  What it does at
a place depends on how it came there, so a mask is a family of functions, one
for each state of the walk.  In a *leaf* state the whole value is dealt with at
once; in every other state the value is kept and the walk goes on into its items
and fields.

* **`Masking.isSome_iff`** — a value is masked without an error iff each of its
  parts is accepted where it stands;
* **`Masking.eq_iff`** — two values have the same mask iff they differ only
  where the mask makes them equal.
-/
import N8n.JsValue

namespace N8n

namespace JsValue

/-- One step down from an array or an object. -/
inductive Step where
  | item (index : ℕ)
  | field (name : String)
  deriving DecidableEq

/-- The key by which the host language reads what a step leads to. -/
def Step.key : Step → String
  | item index => toString index
  | field name => name

def kids : JsValue → List (Step × JsValue)
  | array items => items.mapIdx fun i v => (.item i, v)
  | object fields => fields.map fun f => (.field f.1, f.2)
  | _ => []

def withKids : JsValue → List JsValue → JsValue
  | array _, vs => array vs
  | object fields, vs => object ((fields.map Prod.fst).zip vs)
  | v, _ => v

def shape : JsValue → JsValue
  | array items => array (items.map fun _ => null)
  | object fields => object (fields.map fun f => (f.1, null))
  | v => v

/-- Each item or field replaced by what `f` makes of it; `none` if `f` throws. -/
def mapKids (f : Step → JsValue → Option JsValue) (v : JsValue) : Option JsValue :=
  (v.kids.mapM fun k => f k.1 k.2).map v.withKids

variable {v : JsValue}

theorem sizeOf_kid {k : Step × JsValue} (hk : k ∈ v.kids) :
    sizeOf k.2 < sizeOf v := by
  cases v with
  | array items =>
    obtain ⟨i, hi, rfl⟩ := List.mem_mapIdx.mp hk
    have := List.sizeOf_lt_of_mem (List.getElem_mem hi)
    simp only [array.sizeOf_spec]
    omega
  | object fields =>
    obtain ⟨f, hf, rfl⟩ := List.mem_map.mp hk
    have := List.sizeOf_lt_of_mem hf
    cases f
    simp only [Prod.mk.sizeOf_spec, object.sizeOf_spec] at *
    omega
  | _ => exact absurd hk (List.not_mem_nil)

theorem kids_induction {P : JsValue → Prop} (h : ∀ v, (∀ k ∈ v.kids, P k.2) → P v) (v : JsValue) :
    P v :=
  h v fun k _ => kids_induction h k.2
termination_by sizeOf v
decreasing_by exact sizeOf_kid ‹_›

private theorem names_of_shape_eq {fs gs : List (String × JsValue)}
    (h : (object fs).shape = (object gs).shape) : fs.map Prod.fst = gs.map Prod.fst := by
  have hnames := congrArg (fun v => v.fields.map Prod.fst) h
  simpa only [shape, fields, List.map_map, Function.comp_def] using hnames

variable {w : JsValue}

theorem steps_of_shape_eq (h : v.shape = w.shape) :
    v.kids.map Prod.fst = w.kids.map Prod.fst := by
  cases v <;> cases w
  case array.array items others =>
    have hlength : items.length = others.length := by
      simpa [shape, List.map_const'] using h
    apply List.ext_getElem <;> simp [kids, hlength]
  case object.object fs gs =>
    have hsteps := congrArg (List.map Step.field) (names_of_shape_eq h)
    simpa only [kids, List.map_map, Function.comp_def] using hsteps
  all_goals first | rfl | simp [shape] at h

theorem length_of_shape_eq (h : v.shape = w.shape) :
    v.kids.length = w.kids.length := by
  simpa using congrArg List.length (steps_of_shape_eq h)

theorem step_eq_of_shape_eq (h : v.shape = w.shape) {i : ℕ}
    {k l : Step × JsValue} (hk : v.kids[i]? = some k) (hl : w.kids[i]? = some l) :
    k.1 = l.1 := by
  have hsteps := congrArg (fun steps => steps[i]?) (steps_of_shape_eq h)
  simpa [hk, hl] using hsteps

variable {vs : List JsValue}

theorem kids_withKids (h : vs.length = v.kids.length) :
    (v.withKids vs).kids = (v.kids.map Prod.fst).zip vs := by
  cases v with
  | array items =>
    apply List.ext_getElem <;> simp_all [kids, withKids]
  | object fields =>
    apply List.ext_getElem <;> simp_all [kids, withKids]
  | _ => simp_all [kids, withKids]

theorem shape_withKids (h : vs.length = v.kids.length) :
    (v.withKids vs).shape = v.shape := by
  cases v with
  | array items => simp_all [kids, withKids, shape, List.map_const']
  | object fields =>
    simp only [withKids, shape, object.injEq]
    apply List.ext_getElem <;> simp_all [kids]
  | _ => rfl

theorem withKids_kids (v : JsValue) : v.withKids (v.kids.map Prod.snd) = v := by
  cases v with
  | array items =>
    simp only [withKids, kids, array.injEq]
    apply List.ext_getElem <;> simp
  | object fields =>
    simp only [withKids, kids, object.injEq]
    apply List.ext_getElem <;> simp
  | _ => rfl

theorem withKids_of_shape_eq (h : v.shape = w.shape) (vs : List JsValue) :
    v.withKids vs = w.withKids vs := by
  cases v <;> cases w
  case object.object fs gs => rw [withKids, withKids, names_of_shape_eq h]
  case array.array => rfl
  all_goals first | exact h | simp [shape] at h

private theorem length_of_mapM {α β : Type} {f : α → Option β} {l : List α} {l' : List β}
    (h : l.mapM f = some l') : l'.length = l.length := by
  induction l generalizing l' with
  | nil => simp_all
  | cons a l ih =>
    simp only [List.mapM_cons, bind, Option.bind_eq_some_iff] at h
    obtain ⟨b, -, bs, hbs, h⟩ := h
    cases h
    rw [List.length_cons, List.length_cons, ih hbs]

private theorem mapM_isSome_iff {α β : Type} {f : α → Option β} {l : List α} :
    (l.mapM f).isSome ↔ ∀ a ∈ l, (f a).isSome := by
  induction l with
  | nil => simp
  | cons a l ih =>
    rw [List.forall_mem_cons, ← ih, List.mapM_cons]
    cases f a <;> cases l.mapM f <;> simp

private theorem mapM_eq_iff {α β : Type} {f g : α → Option β} {l m : List α} {l' m' : List β}
    (hl : l.mapM f = some l') (hm : m.mapM g = some m') (hlength : l.length = m.length) :
    l' = m' ↔ ∀ (i : ℕ) a b, l[i]? = some a → m[i]? = some b → f a = g b := by
  induction l generalizing m l' m' with
  | nil =>
    cases m with
    | nil => simp_all
    | cons b m => simp at hlength
  | cons a l ih =>
    cases m with
    | nil => simp at hlength
    | cons b m =>
      simp only [List.mapM_cons, bind, Option.bind_eq_some_iff] at hl hm
      obtain ⟨c, hc, cs, hcs, hl⟩ := hl
      obtain ⟨d, hd, ds, hds, hm⟩ := hm
      cases hl
      cases hm
      rw [List.cons.injEq, ih hcs hds (by simpa using hlength)]
      constructor
      · rintro ⟨rfl, h⟩ i x y hx hy
        cases i with
        | zero =>
          cases hx
          cases hy
          rw [hc, hd]
        | succ i => exact h i x y hx hy
      · intro h
        have hhead := h 0 a b rfl rfl
        rw [hc, hd] at hhead
        exact ⟨Option.some.inj hhead, fun i x y hx hy => h (i + 1) x y hx hy⟩

private theorem mapM_zip {κ α β γ : Type} (f : κ → α → Option β) (g : κ → β → Option γ)
    (l : List (κ × α)) :
    ((l.mapM fun k => f k.1 k.2).bind fun ys => ((l.map Prod.fst).zip ys).mapM fun k => g k.1 k.2)
      = l.mapM fun k => (f k.1 k.2).bind (g k.1) := by
  induction l with
  | nil => rfl
  | cons k l ih =>
    rw [List.mapM_cons, List.mapM_cons, ← ih]
    cases f k.1 k.2 with
    | none => rfl
    | some y =>
      cases hl : l.mapM (fun k => f k.1 k.2) with
      | none => cases hg : g k.1 y <;> simp [hg]
      | some ys => simp [List.mapM_cons]

variable {f : Step → JsValue → Option JsValue}

theorem mapKids_isSome_iff :
    (v.mapKids f).isSome ↔ ∀ k ∈ v.kids, (f k.1 k.2).isSome := by
  rw [mapKids, Option.isSome_map, mapM_isSome_iff]

variable {g : Step → JsValue → Option JsValue}

theorem mapKids_eq_iff {a b : JsValue}
    (ha : v.mapKids f = some a) (hb : w.mapKids g = some b) :
    a = b ↔ v.shape = w.shape ∧
      ∀ (i : ℕ) s x y, v.kids[i]? = some (s, x) → w.kids[i]? = some (s, y) → f s x = g s y := by
  simp only [mapKids, Option.map_eq_some_iff] at ha hb
  obtain ⟨vs, hvs, rfl⟩ := ha
  obtain ⟨ws, hws, rfl⟩ := hb
  have hv := length_of_mapM hvs
  have hw := length_of_mapM hws
  constructor
  · intro h
    have hshape : v.shape = w.shape := by
      rw [← shape_withKids hv, ← shape_withKids hw, h]
    have heq : vs = ws := by
      have hkids := congrArg (fun u => u.kids.map Prod.snd) h
      simp only [kids_withKids hv, kids_withKids hw] at hkids
      rwa [List.map_snd_zip (by simp [hv]), List.map_snd_zip (by simp [hw])] at hkids
    exact ⟨hshape, fun i s x y hx hy =>
      (mapM_eq_iff hvs hws (length_of_shape_eq hshape)).mp heq i _ _ hx hy⟩
  · rintro ⟨hshape, h⟩
    have heq := (mapM_eq_iff hvs hws (length_of_shape_eq hshape)).mpr
      fun i a b hx hy => by
        have hstep := step_eq_of_shape_eq hshape hx hy
        rw [← hstep]
        exact h i a.1 a.2 b.2 hx (by rw [hy, hstep])
    rw [heq, withKids_of_shape_eq hshape]

theorem shape_mapKids
    (h : v.mapKids f = some w) : w.shape = v.shape := by
  simp only [mapKids, Option.map_eq_some_iff] at h
  obtain ⟨vs, hvs, rfl⟩ := h
  exact shape_withKids (length_of_mapM hvs)

theorem mapKids_mapKids (f g : Step → JsValue → Option JsValue) (v : JsValue) :
    (v.mapKids f).bind (mapKids g) = v.mapKids fun s x => (f s x).bind (g s) := by
  rw [mapKids, mapKids, ← mapM_zip]
  cases hvs : v.kids.mapM (fun k => f k.1 k.2) with
  | none => rfl
  | some vs =>
    have hlength := length_of_mapM hvs
    simp only [Option.map_some, Option.bind_some, mapKids, kids_withKids hlength]
    rw [funext (withKids_of_shape_eq (shape_withKids hlength))]

theorem mapKids_some (v : JsValue) : v.mapKids (fun _ x => some x) = some v := by
  rw [mapKids]
  have h : (v.kids.mapM fun k => some k.2) = some (v.kids.map Prod.snd) := List.mapM_pure
  rw [h, Option.map_some, withKids_kids]

theorem mapKids_congr
    (h : ∀ k ∈ v.kids, f k.1 k.2 = g k.1 k.2) : v.mapKids f = v.mapKids g := by
  have hmap : ∀ l : List (Step × JsValue), (∀ k ∈ l, f k.1 k.2 = g k.1 k.2) →
      l.mapM (fun k => f k.1 k.2) = l.mapM fun k => g k.1 k.2 := by
    intro l hl
    induction l with
    | nil => rfl
    | cons k l ih =>
      obtain ⟨hk, hl⟩ := List.forall_mem_cons.mp hl
      rw [List.mapM_cons, List.mapM_cons, hk, ih hl]
  rw [mapKids, mapKids, hmap v.kids h]

theorem foldlM_mapKids {ι : Type} (f : ι → Step → JsValue → Option JsValue) (l : List ι)
    (v : JsValue) :
    l.foldlM (fun v i => v.mapKids (f i)) v
      = v.mapKids fun s x => l.foldlM (fun x i => f i s x) x := by
  induction l generalizing v with
  | nil => exact (mapKids_some v).symm
  | cons i l ih =>
    simp only [List.foldlM_cons, bind]
    rw [← mapKids_mapKids]
    exact congrArg _ (funext ih)

end JsValue

open JsValue

/-- `At v p w`: the path `p` leads from `v` to `w`. -/
inductive At : JsValue → List Step → JsValue → Prop where
  | here (v : JsValue) : At v [] v
  | deeper {v x w : JsValue} {s : Step} {p : List Step} (hk : (s, x) ∈ v.kids) (h : At x p w) :
      At v (s :: p) w

/-- Each part of the value satisfies `W` where it stands. -/
def Everywhere (W : List Step → JsValue → Prop) (v : JsValue) : Prop :=
  ∀ p w, At v p w → W p w

/-- Two values that differ only at places where `S` holds of the two parts. -/
inductive Alike : (List Step → JsValue → JsValue → Prop) → JsValue → JsValue → Prop where
  | same {S} (v : JsValue) : Alike S v v
  | there {S} {v w : JsValue} (h : S [] v w) : Alike S v w
  | deeper {S} {v w : JsValue} (hshape : v.shape = w.shape)
      (h : ∀ (i : ℕ) s x y, v.kids[i]? = some (s, x) → w.kids[i]? = some (s, y) →
        Alike (fun p => S (s :: p)) x y) : Alike S v w

theorem everywhere_iff {W : List Step → JsValue → Prop} {v : JsValue} :
    Everywhere W v ↔ W [] v ∧ ∀ k ∈ v.kids, Everywhere (fun p => W (k.1 :: p)) k.2 := by
  constructor
  · intro h
    exact ⟨h [] v (.here v), fun k hk p w hw => h _ w (.deeper hk hw)⟩
  · rintro ⟨hhere, hbelow⟩ p w hw
    cases hw with
    | here => exact hhere
    | deeper hk hw => exact hbelow _ hk _ w hw

theorem Alike.eq_of_never {S : List Step → JsValue → JsValue → Prop} {v w : JsValue}
    (h : Alike S v w) (hnever : ∀ p x y, ¬ S p x y) : v = w := by
  induction h with
  | same v => rfl
  | there h => exact absurd h (hnever _ _ _)
  | deeper hshape _ ih =>
    exact (mapKids_eq_iff (mapKids_some _) (mapKids_some _)).mpr
      ⟨hshape, fun i s x y hx hy => congrArg some (ih i s x y hx hy fun p => hnever (s :: p))⟩

/-- A family of masks.  A `leaf` state deals with the whole value at once: it
accepts what it `wants`, and makes two values equal that are so already or that
it `hides`.  Any other state goes on below, each item or field being in the state
that `child` names, after it has looked whether it `wants` the value. -/
structure Masking (σ : Type) where
  mask : σ → JsValue → Option JsValue
  leaf : σ → Bool
  child : σ → Step → σ
  wants : σ → JsValue → Prop
  hides : σ → JsValue → JsValue → Prop
  leaf_isSome : ∀ q v, leaf q → ((mask q v).isSome ↔ wants q v)
  leaf_eq : ∀ q v w a b, leaf q → mask q v = some a → mask q w = some b →
    (a = b ↔ v = w ∨ hides q v w)
  wanted : ∀ q v, leaf q = false → wants q v →
    mask q v = v.mapKids fun s x => mask (child q s) x
  unwanted : ∀ q v, leaf q = false → ¬ wants q v → mask q v = none

namespace Masking

variable {σ : Type} (M : Masking σ)

/-- The state in which the walk from `q` comes to the end of a path, if it does
not end before. -/
def spot : σ → List Step → Option σ
  | q, [] => some q
  | q, s :: p => if M.leaf q then none else spot (M.child q s) p

/-- The walk accepts what it finds at the end of a path. -/
def WantsAt (q : σ) (p : List Step) (v : JsValue) : Prop :=
  ∀ r ∈ M.spot q p, M.wants r v

/-- The walk hides the difference of two values at the end of a path. -/
def HidesAt (q : σ) (p : List Step) (v w : JsValue) : Prop :=
  ∃ r ∈ M.spot q p, M.leaf r ∧ M.hides r v w

variable {M} {q : σ}

theorem wantsAt_child (h : M.leaf q = false) (s : Step) :
    (fun p => M.WantsAt q (s :: p)) = M.WantsAt (M.child q s) := by
  funext p v
  simp [WantsAt, spot, h]

theorem hidesAt_child (h : M.leaf q = false) (s : Step) :
    (fun p => M.HidesAt q (s :: p)) = M.HidesAt (M.child q s) := by
  funext p v w
  simp [HidesAt, spot, h]

theorem not_hidesAt_leaf (h : M.leaf q = true) (s : Step) (p : List Step)
    (v w : JsValue) : ¬ M.HidesAt q (s :: p) v w := by
  rintro ⟨r, hr, -⟩
  simp [spot, h] at hr

theorem wantsAt_leaf (h : M.leaf q = true) (s : Step) (p : List Step) (v : JsValue) :
    M.WantsAt q (s :: p) v := by
  intro r hr
  simp [spot, h] at hr

theorem wantsAt_nil {v : JsValue} : M.WantsAt q [] v ↔ M.wants q v := by
  simp [WantsAt, spot]

theorem hidesAt_nil {v w : JsValue} :
    M.HidesAt q [] v w ↔ M.leaf q ∧ M.hides q v w := by
  simp [HidesAt, spot]

theorem mask_open {v a : JsValue} (h : M.leaf q = false) (ha : M.mask q v = some a) :
    (v.mapKids fun s x => M.mask (M.child q s) x) = some a := by
  by_cases hwants : M.wants q v
  · rwa [← M.wanted q v h hwants]
  · rw [M.unwanted q v h hwants] at ha
    cases ha

/-- **What a mask accepts.**  A value is masked without an error iff each of its
parts is wanted where the walk comes to it. -/
theorem isSome_iff (q : σ) (v : JsValue) :
    (M.mask q v).isSome ↔ Everywhere (M.WantsAt q) v := by
  induction v using kids_induction generalizing q with
  | h v ih =>
    rw [everywhere_iff, wantsAt_nil]
    cases hleaf : M.leaf q with
    | true =>
      rw [M.leaf_isSome q v hleaf]
      have hbelow : ∀ k ∈ v.kids, Everywhere (fun p => M.WantsAt q (k.1 :: p)) k.2 :=
        fun k _ p w _ => wantsAt_leaf hleaf k.1 p w
      exact (and_iff_left hbelow).symm
    | false =>
      by_cases hwants : M.wants q v
      · rw [M.wanted q v hleaf hwants, mapKids_isSome_iff, and_iff_right hwants]
        refine forall₂_congr fun k hk => ?_
        rw [ih k hk, wantsAt_child hleaf]
      · rw [M.unwanted q v hleaf hwants]
        exact iff_of_false Bool.false_ne_true fun h => hwants h.1

/-- **What a mask tells.**  Of two values that it accepts, the mask is the same iff
they differ only where it hides the difference. -/
theorem eq_iff (q : σ) {v w a b : JsValue} (ha : M.mask q v = some a)
    (hb : M.mask q w = some b) : a = b ↔ Alike (M.HidesAt q) v w := by
  constructor
  · intro h
    subst h
    induction v using kids_induction generalizing q w a with
    | h v ih =>
      cases hleaf : M.leaf q with
      | true =>
        rcases (M.leaf_eq q v w a a hleaf ha hb).mp rfl with rfl | hhides
        · exact .same v
        · exact .there (hidesAt_nil.mpr ⟨hleaf, hhides⟩)
      | false =>
        have hv := mask_open hleaf ha
        have hw := mask_open hleaf hb
        obtain ⟨hshape, hkids⟩ := (mapKids_eq_iff hv hw).mp rfl
        refine .deeper hshape fun i s x y hx hy => ?_
        have hmem := List.mem_of_getElem? hx
        obtain ⟨c, hc⟩ := Option.isSome_iff_exists.mp
          (mapKids_isSome_iff.mp (Option.isSome_of_eq_some hv) _ hmem)
        rw [hidesAt_child hleaf]
        exact ih _ hmem (M.child q s) hc (by rw [← hkids i s x y hx hy, hc])
  · intro h
    generalize hS : M.HidesAt q = S at h
    induction h generalizing q a b with
    | same v => exact Option.some.inj (ha.symm.trans hb)
    | there h =>
      obtain ⟨hleaf, hhides⟩ := hidesAt_nil.mp (hS ▸ h)
      exact (M.leaf_eq q _ _ a b hleaf ha hb).mpr (.inr hhides)
    | @deeper S v w hshape h ih =>
      subst hS
      cases hleaf : M.leaf q with
      | true =>
        -- Nothing is hidden below a leaf, so the two values are equal.
        have heq : v = w := (mapKids_eq_iff (mapKids_some v) (mapKids_some w)).mpr
          ⟨hshape, fun i s x y hx hy => congrArg some
            ((h i s x y hx hy).eq_of_never (not_hidesAt_leaf hleaf s))⟩
        subst heq
        exact Option.some.inj (ha.symm.trans hb)
      | false =>
        have hv := mask_open hleaf ha
        have hw := mask_open hleaf hb
        refine (mapKids_eq_iff hv hw).mpr ⟨hshape, fun i s x y hx hy => ?_⟩
        obtain ⟨c, hc⟩ := Option.isSome_iff_exists.mp
          (mapKids_isSome_iff.mp (Option.isSome_of_eq_some hv) _ (List.mem_of_getElem? hx))
        obtain ⟨d, hd⟩ := Option.isSome_iff_exists.mp
          (mapKids_isSome_iff.mp (Option.isSome_of_eq_some hw) _ (List.mem_of_getElem? hy))
        have heq := ih i s x y hx hy (M.child q s) hc hd (hidesAt_child hleaf s).symm
        rw [hc, hd, heq]

end Masking

end N8n
