/-
Replacing all matches of a pattern in a text, and texts with marked places.

The replacement goes through the text from the left; a match is replaced as a whole, and the next
one is searched for behind it.  A text with marks is written out by writing a text for each mark.

* **`replaceAll_render`** — where matches start at the marks of some kind only, replacing all of
  them writes these marks in another way.
-/
import Mathlib.Data.List.Infix

namespace N8n.GlobalReplace

variable {α ι : Type*}

/-- A pattern with its replacement: for a text that starts with a match, the length of the match
and what takes its place. -/
abbrev Pattern (α : Type*) := List α → Option (ℕ × List α)

/-- The text with all matches replaced, if its first letters belong to a match before. -/
def replaceAll (m : Pattern α) : ℕ → List α → List α
  | _, [] => []
  | k + 1, _ :: s => replaceAll m k s
  | 0, c :: s => match m (c :: s) with
    | some (length, replacement) => replacement ++ replaceAll m (length - 1) s
    | none => c :: replaceAll m 0 s

/-- No match starts in a text with another one behind it. -/
def quiet (m : Pattern α) : List α → List α → Bool
  | [], _ => true
  | c :: w, s => (m (c :: (w ++ s))).isNone && quiet m w s

/-- A letter of a text, or a marked place. -/
inductive Token (α ι : Type*) where
  | letter (a : α)
  | mark (i : ι)
  deriving DecidableEq

def render (write : ι → List α) : List (Token α ι) → List α
  | [] => []
  | .letter a :: ts => a :: render write ts
  | .mark i :: ts => write i ++ render write ts

/-- Matches start only at marks of some kind.  A letter behind such a mark belongs to its match. -/
def onlyAt (m : Pattern α) (own : ι → Bool) (write : ι → List α) :
    Bool → List (Token α ι) → Bool
  | _, [] => true
  | behind, .letter a :: ts =>
    (behind || (m (a :: render write ts)).isNone) && onlyAt m own write false ts
  | _, .mark i :: ts =>
    (own i || quiet m (write i) (render write ts)) && onlyAt m own write (own i) ts

def marksAll (p : ι → Bool) : List (Token α ι) → Bool
  | [] => true
  | .letter _ :: ts => marksAll p ts
  | .mark i :: ts => p i && marksAll p ts

section

variable {m : Pattern α} {w s replacement : List α}

theorem replaceAll_skip : replaceAll m w.length (w ++ s) = replaceAll m 0 s := by
  induction w with
  | nil => rfl
  | cons c w ih => exact ih

theorem replaceAll_of_none {c : α} (h : m (c :: s) = none) :
    replaceAll m 0 (c :: s) = c :: replaceAll m 0 s := by
  rw [replaceAll, h]

theorem replaceAll_of_match (hne : w ≠ []) (h : m (w ++ s) = some (w.length, replacement)) :
    replaceAll m 0 (w ++ s) = replacement ++ replaceAll m 0 s := by
  rcases w with _ | ⟨c, w⟩
  · exact absurd rfl hne
  · rw [List.cons_append] at h ⊢
    rw [replaceAll, h]
    exact congrArg (replacement ++ ·) replaceAll_skip

theorem replaceAll_of_quiet (h : quiet m w s = true) :
    replaceAll m 0 (w ++ s) = w ++ replaceAll m 0 s := by
  induction w with
  | nil => rfl
  | cons c w ih =>
    rw [quiet, Bool.and_eq_true, Option.isNone_iff_eq_none] at h
    rw [List.cons_append, replaceAll_of_none h.1, ih h.2, List.cons_append]

theorem replaceAll_eq_self (h : ∀ t, t <:+ s → m t = none) : replaceAll m 0 s = s := by
  induction s with
  | nil => rfl
  | cons c s ih =>
    rw [replaceAll_of_none (h _ (List.suffix_refl _)),
      ih fun t ht => h t (ht.trans (List.suffix_cons c s))]

end

/-- What the replacement makes of a mark whose kind the pattern is for: it is replaced, and a letter
behind it stays, whether or not it belongs to the match. -/
def Replaces (m : Pattern α) (write write' : ι → List α) (i : ι) (us : List (Token α ι)) : Prop :=
  (us = [] ∧ replaceAll m 0 (write i) = write' i) ∨
    ∃ a vs, us = .letter a :: vs ∧ replaceAll m 0 (write i ++ a :: render write vs) =
      write' i ++ a :: replaceAll m 0 (render write vs)

/-- **Writing marks in another way**: matches start at these marks only, and each of them is
replaced. -/
theorem replaceAll_render {m : Pattern α} {own : ι → Bool} {write write' : ι → List α}
    {ts : List (Token α ι)} (h : onlyAt m own write false ts = true)
    (hother : ∀ i, own i = false → write' i = write i)
    (hown : ∀ i us, .mark i :: us <:+ ts → own i = true → Replaces m write write' i us) :
    replaceAll m 0 (render write ts) = render write' ts := by
  -- A mark with the letter behind it is one step, so the claim is carried for the tail as well.
  suffices hboth : (onlyAt m own write false ts = true →
      replaceAll m 0 (render write ts) = render write' ts) ∧
      ∀ a vs, ts = .letter a :: vs → onlyAt m own write true ts = true →
        replaceAll m 0 (render write vs) = render write' vs from hboth.1 h
  clear h
  induction ts with
  | nil => exact ⟨fun _ => rfl, fun _ _ hnil => nomatch hnil⟩
  | cons t ts ih =>
    obtain ⟨hrest, hbehind⟩ := ih fun i us hus => hown i us (hus.trans (List.suffix_cons t ts))
    constructor
    · intro h
      cases t with
      | letter a =>
        rw [onlyAt, Bool.false_or, Bool.and_eq_true, Option.isNone_iff_eq_none] at h
        rw [render, replaceAll_of_none h.1, hrest h.2, render]
      | mark i =>
        rw [onlyAt, Bool.and_eq_true, Bool.or_eq_true] at h
        rw [render, render]
        cases hi : own i with
        | false =>
          rw [hi] at h
          rw [replaceAll_of_quiet (h.1.resolve_left Bool.false_ne_true), hrest h.2, hother i hi]
        | true =>
          rw [hi] at h
          obtain ⟨rfl, hend⟩ | ⟨a, vs, rfl, hletter⟩ := hown i ts (List.suffix_refl _) hi
          · rw [render, render, List.append_nil, List.append_nil, hend]
          · rw [render, render, hletter, hbehind a vs rfl h.2]
    · rintro a vs hts h
      obtain ⟨rfl, rfl⟩ := List.cons.inj hts
      rw [onlyAt, Bool.true_or, Bool.true_and] at h
      exact hrest h

section

variable {write write' : ι → List α} {ts : List (Token α ι)}

theorem render_append {us : List (Token α ι)} :
    render write (ts ++ us) = render write ts ++ render write us := by
  induction ts with
  | nil => rfl
  | cons t ts ih => cases t <;> simp [render, ih]

theorem render_congr (h : ∀ i, .mark i ∈ ts → write i = write' i) :
    render write ts = render write' ts := by
  induction ts with
  | nil => rfl
  | cons t ts ih =>
    have hrest := ih fun i hi => h i (List.mem_cons_of_mem t hi)
    cases t with
    | letter a => rw [render, render, hrest]
    | mark i => rw [render, render, hrest, h i List.mem_cons_self]

theorem infix_render_of_mem {i : ι} (h : .mark i ∈ ts) : write i <:+: render write ts := by
  obtain ⟨us, vs, rfl⟩ := List.append_of_mem h
  exact ⟨render write us, render write vs, by rw [render_append, render, List.append_assoc]⟩

theorem of_marksAll {p : ι → Bool} {i : ι} (h : marksAll p ts = true) (hi : .mark i ∈ ts) :
    p i = true := by
  induction ts with
  | nil => cases hi
  | cons t ts ih =>
    cases t with
    | letter a => exact ih h (List.mem_of_ne_of_mem (by simp) hi)
    | mark j =>
      rw [marksAll, Bool.and_eq_true] at h
      obtain heq | hi := List.mem_cons.mp hi
      · rw [Token.mark.inj heq, h.1]
      · exact ih h.2 hi

end

end N8n.GlobalReplace
