/-
Doubly linked rings.

A node has a pointer to the next node and one to the node before it.  `Path f a l z` says
that a pointer leads from `a` through the list `l` to `z`, and `Links.Ring` that the one
pointer leads from a fixed node through a list and back to it, and the other pointer
through the reversed list.  Taking a node out and putting one in after the fixed node act
on the list, `Ring.unlink` and `Ring.insert`, and a loop along either pointer finds the
first or the last of the list that passes its test, `Ring.search_next` and
`Ring.search_prev`.
-/
import Mathlib.Data.List.Basic
import Mathlib.Logic.Function.Basic

namespace CS444
namespace Rings

/-! ## Paths -/

variable {ν : Type*} {f g : ν → ν} {a b h x y z : ν} {l l₁ l₂ : List ν}

/-- Following `f` from `a` leads through the list to `z`. -/
def Path (f : ν → ν) : ν → List ν → ν → Prop
  | a, [], z => f a = z
  | a, b :: l, z => f a = b ∧ Path f b l z

theorem path_append : Path f a (l₁ ++ x :: l₂) z ↔ Path f a l₁ x ∧ Path f x l₂ z := by
  induction l₁ generalizing a with
  | nil => rfl
  | cons b l₁ ih =>
      show f a = b ∧ Path f b (l₁ ++ x :: l₂) z ↔ (f a = b ∧ Path f b l₁ x) ∧ Path f x l₂ z
      rw [ih, and_assoc]

theorem path_congr (hfg : ∀ y ∈ a :: l, g y = f y) : Path g a l z ↔ Path f a l z := by
  induction l generalizing a with
  | nil =>
      show g a = z ↔ f a = z
      rw [hfg a (by simp)]
  | cons b l ih =>
      show g a = b ∧ Path g b l z ↔ f a = b ∧ Path f b l z
      rw [hfg a (by simp), ih fun y hy => hfg y (List.mem_cons_of_mem a hy)]

theorem Path.head (hp : Path f a l z) : f a = l.headD z := by
  cases l with
  | nil => exact hp
  | cons b l => exact hp.1

theorem headD_reverse : l.reverse.headD a = l.getLastD a := by
  rw [List.headD_eq_head?_getD, List.getLastD_eq_getLast?, List.head?_reverse]

theorem getLastD_reverse : l.reverse.getLastD a = l.headD a := by
  rw [List.headD_eq_head?_getD, List.getLastD_eq_getLast?, List.getLast?_reverse]

section

variable [DecidableEq ν]

/-- The first step of a path is changed, and leads past what it led to. -/
theorem Path.skip (hp : Path f x l z) (ha : a ∉ l) :
    Path (Function.update f a (f x)) a l z := by
  cases l with
  | nil =>
      show Function.update f a (f x) a = z
      rw [Function.update_self]
      exact hp
  | cons b l =>
      refine ⟨?_, (path_congr fun y hy => ?_).2 hp.2⟩
      · rw [Function.update_self]
        exact hp.1
      · have hne : y ≠ a := by
          rintro rfl
          exact ha hy
        exact Function.update_of_ne hne ..

/-- A path that is led past a node of it. -/
theorem Path.remove (h₁ : Path f a l₁ x) (h₂ : Path f x l₂ z) (hnd : (a :: (l₁ ++ l₂)).Nodup) :
    Path (Function.update f (l₁.getLastD a) (f x)) a (l₁ ++ l₂) z := by
  induction l₁ generalizing a with
  | nil => exact h₂.skip (List.nodup_cons.1 hnd).1
  | cons b l₁ ih =>
      obtain ⟨ha, hnd⟩ := List.nodup_cons.1 hnd
      have hlast : (b :: l₁).getLastD a ∈ b :: l₁ := by
        rw [List.getLastD_cons, List.getLastD_eq_getLast?]
        cases hl : l₁.getLast? with
        | none => simp
        | some c => exact List.mem_cons_of_mem b (List.mem_of_getLast? hl)
      have hne : a ≠ (b :: l₁).getLastD a := fun he =>
        ha (List.mem_append_left l₂ (he ▸ hlast))
      refine ⟨?_, ?_⟩
      · rw [Function.update_of_ne hne]
        exact h₁.1
      · rw [List.getLastD_cons]
        exact ih h₁.2 hnd

/-- A node is put on a path right after its first one. -/
theorem Path.insert (hp : Path f a l z) (hx : x ∉ a :: l) (ha : a ∉ l) :
    Path (Function.update (Function.update f x (f a)) a x) a (x :: l) z := by
  have hxa : x ≠ a := fun he => hx (he ▸ List.mem_cons_self ..)
  refine ⟨Function.update_self .., ?_⟩
  cases l with
  | nil =>
      show Function.update (Function.update f x (f a)) a x x = z
      rw [Function.update_of_ne hxa, Function.update_self]
      exact hp
  | cons b l =>
      refine ⟨?_, (path_congr fun y hy => ?_).2 hp.2⟩
      · rw [Function.update_of_ne hxa, Function.update_self]
        exact hp.1
      · have hya : y ≠ a := by
          rintro rfl
          exact ha hy
        have hyx : y ≠ x := by
          rintro rfl
          exact hx (List.mem_cons_of_mem a hy)
        rw [Function.update_of_ne hya, Function.update_of_ne hyx]

end

/-! ## Walking a path -/

/-- `for(b = h's; b != h; b = b's) if(p(b)) return b;`: the first node with `p`, if there
is one before `h` comes round again.  Nothing when the steps are used up. -/
def search [DecidableEq ν] (f : ν → ν) (h : ν) (p : ν → Bool) : Nat → ν → Option (Option ν)
  | 0, _ => none
  | n + 1, b => if b = h then some none else if p b then some (some b) else search f h p n (f b)

theorem search_path [DecidableEq ν] {p : ν → Bool} {n : Nat} (hp : Path f a l h) (hh : h ∉ l)
    (hn : l.length < n) : search f h p n (f a) = some (l.find? p) := by
  induction l generalizing a n with
  | nil =>
      obtain ⟨n, rfl⟩ := Nat.exists_eq_succ_of_ne_zero (Nat.ne_of_gt hn)
      rw [show f a = h from hp, search, if_pos rfl]
      rfl
  | cons b l ih =>
      obtain ⟨n, rfl⟩ := Nat.exists_eq_succ_of_ne_zero (Nat.ne_of_gt (Nat.lt_of_le_of_lt
        (Nat.zero_le _) hn))
      rw [List.mem_cons, not_or] at hh
      rw [hp.1, search, if_neg (Ne.symm hh.1)]
      by_cases hb : p b = true
      · rw [if_pos hb, List.find?_cons_of_pos hb]
      · rw [if_neg hb, List.find?_cons_of_neg hb]
        refine ih hp.2 hh.2 ?_
        rw [List.length_cons] at hn
        omega

/-! ## Rings -/

/-- The two pointers of every node. -/
structure Links (ν : Type*) where
  next : ν → ν
  prev : ν → ν

namespace Links

variable {r : Links ν}

/-- `p->next = q` -/
def setNext [DecidableEq ν] (r : Links ν) (p q : ν) : Links ν :=
  { r with next := Function.update r.next p q }

/-- `p->prev = q` -/
def setPrev [DecidableEq ν] (r : Links ν) (p q : ν) : Links ν :=
  { r with prev := Function.update r.prev p q }

/-- `b->next->prev = b->prev; b->prev->next = b->next;` -/
def unlink [DecidableEq ν] (r : Links ν) (b : ν) : Links ν :=
  let r := r.setPrev (r.next b) (r.prev b)
  r.setNext (r.prev b) (r.next b)

/-- `b->next = h->next; b->prev = h; h->next->prev = b; h->next = b;` -/
def insert [DecidableEq ν] (r : Links ν) (h b : ν) : Links ν :=
  let r := r.setNext b (r.next h)
  let r := r.setPrev b h
  let r := r.setPrev (r.next h) b
  r.setNext h b

/-- From `h`, the one pointer leads through the list and back, and the other one through
the reversed list. -/
structure Ring (r : Links ν) (h : ν) (l : List ν) : Prop where
  forth : Path r.next h l h
  back : Path r.prev h l.reverse h
  nodup : (h :: l).Nodup

theorem ring_empty (hn : r.next h = h) (hp : r.prev h = h) : r.Ring h [] :=
  ⟨hn, hp, by simp⟩

theorem Ring.split (hr : r.Ring h (l₁ ++ b :: l₂)) :
    (Path r.next h l₁ b ∧ Path r.next b l₂ h) ∧
      (Path r.prev h l₂.reverse b ∧ Path r.prev b l₁.reverse h) := by
  have hback := hr.back
  rw [List.reverse_append, List.reverse_cons, List.append_assoc] at hback
  exact ⟨path_append.1 hr.forth, path_append.1 hback⟩

variable [DecidableEq ν]

theorem Ring.unlink (hr : r.Ring h (l₁ ++ b :: l₂)) : (r.unlink b).Ring h (l₁ ++ l₂) := by
  obtain ⟨⟨hf₁, hf₂⟩, hb₂, hb₁⟩ := hr.split
  have hnext : r.next b = l₂.headD h := hf₂.head
  have hprev : r.prev b = l₁.getLastD h := by
    rw [hb₁.head, headD_reverse]
  have hnd : (h :: (l₁ ++ l₂)).Nodup := by
    have hsub : (h :: (l₁ ++ l₂)).Sublist (h :: (l₁ ++ b :: l₂)) := by simp
    exact hsub.nodup hr.nodup
  have hb : b ∉ h :: (l₁ ++ l₂) := by
    have hperm : (b :: (h :: (l₁ ++ l₂))).Nodup := by
      refine (List.Perm.nodup_iff ?_).1 hr.nodup
      exact (List.perm_middle.cons h).trans (List.Perm.swap b h _)
    exact (List.nodup_cons.1 hperm).1
  have hne : b ≠ r.next b := by
    rw [hnext]
    intro he
    apply hb
    rw [he]
    cases l₂ with
    | nil => simp
    | cons c l₂ => simp
  have hkept : Function.update r.prev (r.next b) (r.prev b) b = r.prev b :=
    Function.update_of_ne hne ..
  constructor
  case nodup => exact hnd
  case forth =>
    show Path (Function.update r.next (Function.update r.prev (r.next b) (r.prev b) b)
      (r.next b)) h (l₁ ++ l₂) h
    rw [hkept, hprev]
    exact hf₁.remove hf₂ hnd
  case back =>
    show Path (Function.update r.prev (r.next b) (r.prev b)) h (l₁ ++ l₂).reverse h
    rw [hnext, ← getLastD_reverse, List.reverse_append]
    refine hb₂.remove hb₁ ?_
    refine (List.Perm.nodup_iff (List.Perm.cons h ?_)).1 hnd
    rw [← List.reverse_append]
    exact (List.reverse_perm _).symm

theorem Ring.insert (hr : r.Ring h l) (hb : b ∉ h :: l) : (r.insert h b).Ring h (b :: l) := by
  have hbh : h ≠ b := fun he => hb (he ▸ List.mem_cons_self ..)
  have hkept : Function.update r.next b (r.next h) h = r.next h := Function.update_of_ne hbh ..
  obtain ⟨hh, hnd⟩ := List.nodup_cons.1 hr.nodup
  constructor
  case nodup =>
    refine (List.Perm.nodup_iff (List.Perm.swap b h l)).2 ?_
    exact List.nodup_cons.2 ⟨hb, hr.nodup⟩
  case forth =>
    show Path (Function.update (Function.update r.next b (r.next h)) h b) h (b :: l) h
    exact hr.forth.insert hb hh
  case back =>
    show Path (Function.update (Function.update r.prev b h)
      (Function.update r.next b (r.next h) h) b) h (b :: l).reverse h
    rw [hkept, hr.forth.head, List.reverse_cons]
    cases l with
    | nil =>
        refine ⟨Function.update_self .., ?_⟩
        show Function.update (Function.update r.prev b h) h b b = h
        rw [Function.update_of_ne hbh.symm, Function.update_self]
    | cons c l =>
        have hback := hr.back
        rw [List.reverse_cons] at hback ⊢
        rw [List.append_assoc]
        obtain ⟨hc, hl⟩ := List.nodup_cons.1 hnd
        have hbc : b ≠ c := fun he => hb (he ▸ List.mem_cons_of_mem h (List.mem_cons_self ..))
        refine path_append.2 ⟨(path_congr fun y hy => ?_).2 (path_append.1 hback).1, ?_, ?_⟩
        · have hyl : y = h ∨ y ∈ l := by simpa using hy
          have hyc : y ≠ c := by
            rintro rfl
            exact hyl.elim (fun he => hh (he ▸ List.mem_cons_self ..)) hc
          have hyb : y ≠ b := by
            rintro rfl
            exact hyl.elim (fun he => hbh he.symm)
              fun hmem => hb (List.mem_cons_of_mem h (List.mem_cons_of_mem c hmem))
          rw [List.headD_cons, Function.update_of_ne hyc, Function.update_of_ne hyb]
        · exact Function.update_self ..
        · show Function.update (Function.update r.prev b h) c b b = h
          rw [Function.update_of_ne hbc, Function.update_self]

theorem Ring.search_next {p : ν → Bool} {n : Nat} (hr : r.Ring h l) (hn : l.length < n) :
    search r.next h p n (r.next h) = some (l.find? p) :=
  search_path hr.forth (List.nodup_cons.1 hr.nodup).1 hn

theorem Ring.search_prev {p : ν → Bool} {n : Nat} (hr : r.Ring h l) (hn : l.length < n) :
    search r.prev h p n (r.prev h) = some (l.reverse.find? p) := by
  refine search_path hr.back ?_ (by rwa [List.length_reverse])
  rw [List.mem_reverse]
  exact (List.nodup_cons.1 hr.nodup).1

end Links

end Rings
end CS444
