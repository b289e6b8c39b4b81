/-
A search that avoids the nodes of the path it came on, and lists what it finds with the
newest first.

`collect` goes from a node to each of its successors in turn, unless the successor is on the
path.  It puts the successor in front of the list, and then moves what it finds from there to
the front of it, node by node.  Only the latter takes care of nodes that are listed already.

* `ordered_collect` — **without cycles, each node comes after all that can be reached from
  it**, by the first places where they stand.
-/
import Mathlib.Data.List.Nodup
import Mathlib.Data.List.Perm.Basic
import Mathlib.Logic.Relation

namespace N8n.PathSearch

variable {α : Type*}

/-- `b` stands in the list, and before the first `a`. -/
def Precedes : List α → α → α → Prop
  | [], _, _ => False
  | c :: cs, b, a => a ≠ c ∧ (b = c ∨ Precedes cs b a)

variable {l : List α}

theorem Precedes.sublist {a b : α} (h : Precedes l b a) (ha : a ∈ l) :
    [b, a].Sublist l := by
  induction l with
  | nil => exact h.elim
  | cons c l ih =>
    obtain ⟨hac, hb⟩ := h
    have hal : a ∈ l := (List.mem_cons.mp ha).resolve_left hac
    rcases hb with rfl | hb
    · exact List.Sublist.cons_cons b (List.singleton_sublist.mpr hal)
    · exact (ih hb hal).cons c

theorem precedes_of_not_mem {a b : α} (hb : b ∈ l) (ha : a ∉ l) : Precedes l b a := by
  induction l with
  | nil => cases hb
  | cons c l ih =>
    rw [List.mem_cons, not_or] at ha
    exact ⟨ha.1, (List.mem_cons.mp hb).imp_right fun hb => ih hb ha.2⟩

variable [DecidableEq α]

/-- Each node to add, the last one first, is taken out of the list and put in front. -/
def moveToFront (add found : List α) : List α := add.foldr (fun a found => a :: found.erase a) found

def collect (succ : α → List α) : ℕ → List α → α → List α
  | 0, _, _ => []
  | depth + 1, path, a =>
    if a ∈ path then []
    else (succ a).foldl (fun found b =>
      if b ∈ a :: path then found
      else moveToFront (collect succ depth (a :: path) b) (b :: found)) []

theorem moveToFront_cons (a : α) (add found : List α) :
    moveToFront (a :: add) found = a :: (moveToFront add found).erase a := rfl

theorem mem_moveToFront {add found : List α} {m : α} :
    m ∈ moveToFront add found ↔ m ∈ add ∨ m ∈ found := by
  induction add with
  | nil => simp [moveToFront]
  | cons a add ih =>
    rw [moveToFront_cons]
    by_cases hma : m = a
    · simp [hma]
    · rw [List.mem_cons, List.mem_erase_of_ne hma, ih, List.mem_cons, or_assoc]

theorem nodup_moveToFront {add found : List α} : (moveToFront add found).Nodup ↔ found.Nodup := by
  induction add with
  | nil => exact Iff.rfl
  | cons a add ih =>
    rw [moveToFront_cons, ← ih]
    by_cases ha : a ∈ moveToFront add found
    · exact (List.perm_cons_erase ha).nodup_iff.symm
    · rw [List.erase_of_not_mem ha, List.nodup_cons]
      exact and_iff_right ha

theorem precedes_erase {a b c : α} (ha : a ≠ c) (hb : b ≠ c) :
    Precedes (l.erase c) b a ↔ Precedes l b a := by
  induction l with
  | nil => exact Iff.rfl
  | cons d l ih =>
    by_cases hd : d = c
    · rw [hd, List.erase_cons_head]
      exact ⟨fun h => ⟨ha, .inr h⟩, fun h => h.2.resolve_left hb⟩
    · rw [List.erase_cons_tail (by simpa using hd)]
      exact and_congr_right fun _ => or_congr_right ih

theorem Precedes.moveToFront {add : List α} {a b : α} (h : Precedes add b a) (found : List α) :
    Precedes (moveToFront add found) b a := by
  induction add with
  | nil => exact h.elim
  | cons c add ih =>
    obtain ⟨hac, hb⟩ := h
    refine ⟨hac, ?_⟩
    by_cases hbc : b = c
    · exact .inl hbc
    · exact .inr ((precedes_erase hac hbc).mpr (ih (hb.resolve_left hbc)))

theorem precedes_moveToFront_iff {add found : List α} {a b : α} (ha : a ∉ add) (hb : b ∉ add) :
    Precedes (moveToFront add found) b a ↔ Precedes found b a := by
  induction add with
  | nil => exact Iff.rfl
  | cons c add ih =>
    rw [List.mem_cons, not_or] at ha hb
    show a ≠ c ∧ (b = c ∨ Precedes ((moveToFront add found).erase c) b a) ↔ _
    rw [precedes_erase ha.1 hb.1, ih ha.2 hb.2, or_iff_right hb.1]
    exact and_iff_right ha.1

section

variable {succ : α → List α} {keys path : List α} {a b m : α}

/-- One step around the path. -/
def Around (succ : α → List α) (path : List α) (a b : α) : Prop := b ∈ succ a ∧ b ∉ path

omit [DecidableEq α] in
theorem ne_of_around (h : Relation.ReflTransGen (Around succ (a :: path)) b m) (hb : b ≠ a) :
    m ≠ a := by
  rcases h.cases_tail with rfl | ⟨x, -, hx⟩
  · exact hb
  · exact fun heq => hx.2 (heq ▸ List.mem_cons_self)

theorem mem_foldl_moveToFront (f : α → List α) (bs found : List α) :
    m ∈ bs.foldl (fun found b => if b ∈ path then found
        else moveToFront (f b) (b :: found)) found ↔
      m ∈ found ∨ ∃ b ∈ bs, b ∉ path ∧ (m = b ∨ m ∈ f b) := by
  induction bs generalizing found with
  | nil => simp
  | cons b bs ih =>
    rw [List.foldl_cons, ih]
    simp only [List.mem_cons, exists_eq_or_imp]
    by_cases hb : b ∈ path
    · rw [if_pos hb]
      exact or_congr_right (or_iff_right fun h => h.1 hb).symm
    · rw [if_neg hb, mem_moveToFront, List.mem_cons, ← or_assoc (a := m ∈ found)]
      refine or_congr_left ?_
      constructor
      · rintro (h | h | h)
        · exact .inr ⟨hb, .inr h⟩
        · exact .inr ⟨hb, .inl h⟩
        · exact .inl h
      · rintro (h | ⟨-, h | h⟩)
        · exact .inr (.inr h)
        · exact .inr (.inl h)
        · exact .inl h

theorem exists_last_visit (h : Relation.ReflTransGen (Around succ path) a m) (hma : m ≠ a) :
    ∃ b, b ∈ succ a ∧ b ∉ a :: path ∧ Relation.ReflTransGen (Around succ (a :: path)) b m := by
  induction h with
  | refl => exact absurd rfl hma
  | @tail x y _ hxy ih =>
    have hy : y ∉ a :: path := by
      rw [List.mem_cons, not_or]
      exact ⟨hma, hxy.2⟩
    by_cases hxa : x = a
    · subst hxa
      exact ⟨y, hxy.1, hy, .refl⟩
    · obtain ⟨b, hb, hbn, hbx⟩ := ih hxa
      exact ⟨b, hb, hbn, hbx.tail ⟨hxy.1, hy⟩⟩

theorem length_filter_lt (hkey : a ∈ keys) (ha : a ∉ path) :
    (keys.filter (· ∉ a :: path)).length < (keys.filter (· ∉ path)).length := by
  have hsub : keys.filter (· ∉ a :: path) = (keys.filter (· ∉ path)).filter (· ≠ a) := by
    rw [List.filter_filter]
    refine List.filter_congr fun x _ => ?_
    simp [List.mem_cons, not_or]
  rw [hsub, List.length_filter_lt_length_iff_exists]
  exact ⟨a, List.mem_filter.mpr ⟨hkey, by simpa using ha⟩, by simp⟩

variable {depth : ℕ}

/-- **The search finds what can be reached around the path**, if it may go as deep as there
are nodes with successors. -/
theorem mem_collect (hkeys : ∀ a, succ a ≠ [] → a ∈ keys) :
    ∀ {path : List α} {a : α}, a ∉ path → (keys.filter (· ∉ path)).length ≤ depth →
      (m ∈ collect succ depth path a ↔
        m ≠ a ∧ Relation.ReflTransGen (Around succ path) a m) := by
  induction depth with
  | zero =>
    intro path a ha hlen
    refine iff_of_false List.not_mem_nil ?_
    rintro ⟨hma, hreach⟩
    obtain ⟨b, hb, -⟩ := exists_last_visit hreach hma
    have hkey : a ∈ keys.filter (· ∉ path) :=
      List.mem_filter.mpr ⟨hkeys a (List.ne_nil_of_mem hb), by simpa using ha⟩
    have hpos := List.length_pos_of_mem hkey
    omega
  | succ depth ih =>
    intro path a ha hlen
    rw [collect, if_neg ha, mem_foldl_moveToFront, or_iff_right List.not_mem_nil]
    have hrest : ∀ b ∈ succ a, b ∉ a :: path → ((m = b ∨ m ∈ collect succ depth (a :: path) b) ↔
        Relation.ReflTransGen (Around succ (a :: path)) b m) := by
      intro b hb hbn
      have hless := length_filter_lt (hkeys a (List.ne_nil_of_mem hb)) ha
      rw [ih hbn (by omega)]
      constructor
      · rintro (rfl | ⟨-, h⟩)
        · exact .refl
        · exact h
      · exact fun h => or_iff_not_imp_left.mpr fun hne => ⟨hne, h⟩
    constructor
    · rintro ⟨b, hb, hbn, h⟩
      have hwalk := (hrest b hb hbn).mp h
      rw [List.mem_cons, not_or] at hbn
      refine ⟨ne_of_around hwalk hbn.1, .head ⟨hb, hbn.2⟩ ?_⟩
      have haround : ∀ x y, Around succ (a :: path) x y → Around succ path x y := fun x y hxy =>
        ⟨hxy.1, fun hy => hxy.2 (List.mem_cons_of_mem _ hy)⟩
      exact Relation.ReflTransGen.mono haround _ _ hwalk
    · rintro ⟨hma, hreach⟩
      obtain ⟨b, hb, hbn, hwalk⟩ := exists_last_visit hreach hma
      exact ⟨b, hb, hbn, (hrest b hb hbn).mpr hwalk⟩

theorem nodup_foldl_moveToFront (f : α → List α) (bs found : List α) :
    (bs.foldl (fun found b => if b ∈ path then found
        else moveToFront (f b) (b :: found)) found).Nodup ↔
      found.Nodup ∧ (∀ b ∈ bs, b ∉ path → b ∉ found) ∧
        (bs.filter (· ∉ path)).Pairwise fun b c => c ≠ b ∧ c ∉ f b := by
  induction bs generalizing found with
  | nil => simp
  | cons b bs ih =>
    rw [List.foldl_cons, ih, List.forall_mem_cons, List.filter_cons]
    by_cases hb : b ∈ path
    · simp [hb]
    · rw [if_neg hb, if_pos (decide_eq_true hb), nodup_moveToFront, List.nodup_cons,
        List.pairwise_cons]
      simp only [mem_moveToFront, List.mem_cons, List.mem_filter, decide_eq_true_eq, not_or]
      constructor
      · rintro ⟨⟨hnew, hfound⟩, hlater, hpairs⟩
        exact ⟨hfound, ⟨fun _ => hnew, fun c hc hcp => (hlater c hc hcp).2.2⟩,
          fun c hc => ⟨(hlater c hc.1 hc.2).2.1, (hlater c hc.1 hc.2).1⟩, hpairs⟩
      · rintro ⟨hfound, ⟨hnew, hlater⟩, hfirst, hpairs⟩
        exact ⟨⟨hnew hb, hfound⟩, fun c hc hcp => ⟨(hfirst c ⟨hc, hcp⟩).2,
          (hfirst c ⟨hc, hcp⟩).1, hlater c hc hcp⟩, hpairs⟩

/-- **No node is listed twice** iff no successor can be reached from an earlier one. -/
theorem nodup_collect (hkeys : ∀ a, succ a ≠ [] → a ∈ keys) (ha : a ∉ path)
    (hlen : (keys.filter (· ∉ path)).length ≤ depth + 1) :
    (collect succ (depth + 1) path a).Nodup ↔
      ((succ a).filter (· ∉ a :: path)).Pairwise fun b c =>
        ¬ Relation.ReflTransGen (Around succ (a :: path)) b c := by
  rw [collect, if_neg ha, nodup_foldl_moveToFront, and_iff_right List.nodup_nil,
    and_iff_right fun _ _ _ => List.not_mem_nil]
  refine List.Pairwise.iff_of_mem fun {b c} hb _ => ?_
  obtain ⟨hb, hbn⟩ := List.mem_filter.mp hb
  have hless := length_filter_lt (hkeys a (List.ne_nil_of_mem hb)) ha
  rw [mem_collect hkeys (of_decide_eq_true hbn) (by omega), not_and]
  constructor
  · exact fun h hwalk => h.2 h.1 hwalk
  · exact fun h => ⟨fun heq => h (heq ▸ .refl), fun _ => h⟩

/-- What can be reached from a node of the list comes before it. -/
def Ordered (succ : α → List α) (l : List α) : Prop :=
  ∀ a ∈ l, ∀ b, Relation.TransGen (fun a b => b ∈ succ a) a b → Precedes l b a

theorem Ordered.moveToFront {add found : List α} (hadd : Ordered succ add)
    (hfound : Ordered succ found)
    (hmem : ∀ m, m ∈ add ↔ Relation.TransGen (fun a b => b ∈ succ a) b m) :
    Ordered succ (moveToFront add (b :: found)) := by
  intro x hx y hxy
  by_cases hxadd : x ∈ add
  · exact (hadd x hxadd y hxy).moveToFront _
  · by_cases hyadd : y ∈ add
    · exact (precedes_of_not_mem hyadd hxadd).moveToFront _
    · rw [precedes_moveToFront_iff hxadd hyadd]
      rcases mem_moveToFront.mp hx with hx | hx
      · exact absurd hx hxadd
      · by_cases hxb : x = b
        · exact absurd ((hmem y).mpr (hxb ▸ hxy)) hyadd
        · exact ⟨hxb, .inr (hfound x ((List.mem_cons.mp hx).resolve_left hxb) y hxy)⟩

theorem mem_collect_of_acyclic (hkeys : ∀ a, succ a ≠ [] → a ∈ keys)
    (hacyclic : ∀ a, ¬ Relation.TransGen (fun a b => b ∈ succ a) a a)
    (hpath : ∀ p ∈ path, Relation.TransGen (fun a b => b ∈ succ a) p a)
    (hlen : (keys.filter (· ∉ path)).length ≤ depth) :
    m ∈ collect succ depth path a ↔ Relation.TransGen (fun a b => b ∈ succ a) a m := by
  rw [mem_collect hkeys (fun ha => hacyclic a (hpath a ha)) hlen]
  constructor
  · rintro ⟨hma, hwalk⟩
    have hstep : ∀ x y, Around succ path x y → y ∈ succ x := fun x y hxy => hxy.1
    have hany := Relation.ReflTransGen.mono hstep _ _ hwalk
    exact (Relation.reflTransGen_iff_eq_or_transGen.mp hany).resolve_left hma
  · intro hwalk
    refine ⟨fun heq => hacyclic a (heq ▸ hwalk), ?_⟩
    -- a node of the path on the walk would close a cycle
    have haround : ∀ x, Relation.TransGen (fun a b => b ∈ succ a) a x → x ∉ path :=
      fun x hx hxp => hacyclic a (hx.trans (hpath x hxp))
    induction hwalk with
    | single hstep => exact .single ⟨hstep, haround _ (.single hstep)⟩
    | tail hwalk hstep ih => exact ih.tail ⟨hstep, haround _ (hwalk.tail hstep)⟩

/-- **Without cycles, what can be reached from a node stands before it.** -/
theorem ordered_collect (hkeys : ∀ a, succ a ≠ [] → a ∈ keys)
    (hacyclic : ∀ a, ¬ Relation.TransGen (fun a b => b ∈ succ a) a a) :
    ∀ {path : List α} {a : α}, (∀ p ∈ path, Relation.TransGen (fun a b => b ∈ succ a) p a) →
      (keys.filter (· ∉ path)).length ≤ depth → Ordered succ (collect succ depth path a) := by
  induction depth with
  | zero =>
    intro path a _ _ x hx
    cases hx
  | succ depth ih =>
    intro path a hpath hlen
    have ha : a ∉ path := fun ha => hacyclic a (hpath a ha)
    rw [collect, if_neg ha]
    have hloop : ∀ bs : List α, (∀ b ∈ bs, b ∈ succ a) → ∀ found, Ordered succ found →
        Ordered succ (bs.foldl (fun found b => if b ∈ a :: path then found
          else PathSearch.moveToFront (collect succ depth (a :: path) b) (b :: found)) found) := by
      intro bs
      induction bs with
      | nil => exact fun _ found hfound => hfound
      | cons b bs ihbs =>
        intro hbs found hfound
        rw [List.foldl_cons]
        refine ihbs (fun c hc => hbs c (List.mem_cons_of_mem _ hc)) _ ?_
        split
        · exact hfound
        · have hb := hbs b List.mem_cons_self
          have hless := length_filter_lt (hkeys a (List.ne_nil_of_mem hb)) ha
          have hpath' : ∀ p ∈ a :: path, Relation.TransGen (fun a b => b ∈ succ a) p b := by
            intro p hp
            rcases List.mem_cons.mp hp with rfl | hp
            · exact .single hb
            · exact (hpath p hp).tail hb
          exact (ih hpath' (by omega)).moveToFront hfound fun m =>
            mem_collect_of_acyclic hkeys hacyclic hpath' (by omega)
    exact hloop (succ a) (fun b hb => hb) [] fun x hx => by cases hx

end

end N8n.PathSearch
