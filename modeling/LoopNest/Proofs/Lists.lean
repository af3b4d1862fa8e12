import LoopNest.Outcome
import Mathlib.Data.List.Forall2
import Mathlib.Data.List.Nodup
import Mathlib.Data.List.Perm.Basic

namespace LoopNest

section Snoc

variable {α β : Type} {f : α → β} {xs before after : List α} {x y : α}

theorem nodup_map_snoc : ((xs ++ [x]).map f).Nodup ↔ (xs.map f).Nodup ∧ f x ∉ xs.map f := by
  rw [List.map_append, List.map_singleton, ← List.concat_eq_append, List.nodup_concat, and_comm]

theorem not_mem_of_nodup_map (h : ((before ++ x :: after).map f).Nodup) : f x ∉ before.map f := by
  rw [List.map_append, List.map_cons, List.nodup_append] at h
  exact fun hmem => h.2.2 _ hmem _ List.mem_cons_self rfl

theorem split_of_snoc (h : xs ++ [x] = before ++ y :: after) :
    (before = xs ∧ y = x) ∨ ∃ rest, xs = before ++ y :: rest := by
  rcases List.eq_nil_or_concat after with rfl | ⟨rest, z, rfl⟩
  · obtain ⟨hbefore, hy⟩ := List.append_inj' h rfl
    exact Or.inl ⟨hbefore.symm, (List.singleton_inj.1 hy).symm⟩
  · rw [List.concat_eq_append, ← List.cons_append, ← List.append_assoc] at h
    exact Or.inr ⟨rest, (List.append_inj' h rfl).1⟩

end Snoc

section Stop

variable {α : Type} {p : α → Bool} {l m r s : List α}

theorem takeWhile_of_stop (hl : ∀ a ∈ l, p a) (hr : ∀ a ∈ r.head?, p a = false) : (l ++ r).takeWhile p = l := by
  rw [List.takeWhile_append_of_pos hl]
  cases r with
  | nil => simp
  | cons a r => simp [hr a rfl]

theorem dropWhile_of_stop (hl : ∀ a ∈ l, p a) (hr : ∀ a ∈ r.head?, p a = false) : (l ++ r).dropWhile p = r := by
  rw [List.dropWhile_append_of_pos hl]
  cases r with
  | nil => rfl
  | cons a r => simp [hr a rfl]

theorem append_inj_of_stop (hl : ∀ a ∈ l, p a) (hm : ∀ a ∈ m, p a) (hr : ∀ a ∈ r.head?, p a = false)
    (hs : ∀ a ∈ s.head?, p a = false) (h : l ++ r = m ++ s) : l = m ∧ r = s := by
  have hsame : l = m := by rw [← takeWhile_of_stop hl hr, ← takeWhile_of_stop hm hs, h]
  exact ⟨hsame, List.append_cancel_left (hsame ▸ h)⟩

theorem stop_cons {a : α} (ha : p a = false) : ∀ b ∈ (a :: r).head?, p b = false := by
  rintro b ⟨⟩
  exact ha

theorem intercalate_inj {sep : List α} {ls ls' : List (List α)} (hne : sep ≠ []) (hsep : ∀ a ∈ sep.head?, p a = false)
    (hls : ∀ l ∈ ls, ∀ a ∈ l, p a) (hls' : ∀ l ∈ ls', ∀ a ∈ l, p a) (hlength : ls.length = ls'.length)
    (h : sep.intercalate ls = sep.intercalate ls') : ls = ls' := by
  obtain ⟨c, t, rfl⟩ := List.exists_cons_of_ne_nil hne
  induction ls generalizing ls' with
  | nil => exact (List.length_eq_zero_iff.1 hlength.symm).symm
  | cons l ls ih =>
    obtain ⟨l', ls', rfl⟩ := List.exists_cons_of_length_eq_add_one hlength.symm
    obtain ⟨hl, hrest⟩ := List.forall_mem_cons.1 hls
    obtain ⟨hl', hrest'⟩ := List.forall_mem_cons.1 hls'
    rw [List.length_cons, List.length_cons, Nat.add_right_cancel_iff] at hlength
    cases ls with
    | nil =>
      obtain rfl := List.length_eq_zero_iff.1 hlength.symm
      simpa using h
    | cons m ls =>
      obtain ⟨m', ls', rfl⟩ := List.exists_cons_of_length_eq_add_one hlength.symm
      have hstop (more : List α) : ∀ a ∈ (c :: t ++ more).head?, p a = false := hsep
      rw [List.intercalate_cons_cons, List.intercalate_cons_cons, List.append_assoc, List.append_assoc] at h
      obtain ⟨rfl, htail⟩ := append_inj_of_stop hl hl' (hstop _) (hstop _) h
      rw [ih hrest hrest' hlength (List.append_cancel_left htail)]

theorem mem_of_mem_intercalate {sep : List α} {ls : List (List α)} {a : α} (h : a ∈ sep.intercalate ls) :
    a ∈ sep ∨ ∃ l ∈ ls, a ∈ l := by
  induction ls with
  | nil => simp at h
  | cons l ls ih =>
    cases ls with
    | nil => exact .inr ⟨l, List.mem_cons_self, by simpa using h⟩
    | cons m ls =>
      rw [List.intercalate_cons_cons, List.mem_append, List.mem_append] at h
      rcases h with (h | h) | h
      · exact .inr ⟨l, List.mem_cons_self, h⟩
      · exact .inl h
      · exact (ih h).imp_right fun ⟨k, hk, ha⟩ => ⟨k, List.mem_cons_of_mem l hk, ha⟩

end Stop

section Position

variable {α : Type}

theorem modify_length (pre post : List α) (x : α) (f : α → α) :
    (pre ++ x :: post).modify pre.length f = pre ++ f x :: post := by
  induction pre with
  | nil => rfl
  | cons y pre ih => simp [ih]

theorem insertIdx_length (pre post : List α) (x y : α) :
    (pre ++ x :: post).insertIdx (pre.length + 1) y = (pre ++ [x]) ++ y :: post := by
  induction pre with
  | nil => rfl
  | cons z pre ih => simpa using ih

theorem getElem?_length (pre post : List α) (x : α) : (pre ++ x :: post)[pre.length]? = some x := by
  simp

theorem take_eq_append_drop (xs : List α) {m n : Nat} (h : m ≤ n) :
    xs.take n = xs.take m ++ (xs.take n).drop m := by
  have htake : (xs.take n).take m = xs.take m := by
    rw [List.take_take, Nat.min_eq_left h]
  rw [← htake, List.take_append_drop]

end Position

section Perm

variable {α β γ : Type} {a b b' c x : List α}

theorem flatMap_comm_perm (xs : List α) (ys : List β) (f : α → β → List γ) :
    (xs.flatMap fun a => ys.flatMap (f a)).Perm (ys.flatMap fun b => xs.flatMap fun a => f a b) := by
  induction xs with
  | nil => simp
  | cons a xs ih =>
    simp only [List.flatMap_cons]
    exact (ih.append_left _).trans (List.flatMap_append_perm ys (f a) _)

theorem perm_swap_middle [DecidableEq α] (h : b.Perm (x ++ b')) :
    (a ++ (b ++ c)).Perm (x ++ (a ++ (b' ++ c))) := by
  refine List.perm_iff_count.2 fun y => ?_
  have hy := h.count_eq y
  simp only [List.count_append] at hy ⊢
  omega

theorem perm_to_front (h : b.Perm x) : (a ++ (b ++ c)).Perm (x ++ (a ++ c)) :=
  ((h.append_right c).append_left a).trans (List.perm_append_comm_assoc a x c)

theorem append_subset_middle (a c : List α) (h : b ⊆ b') : a ++ (b ++ c) ⊆ a ++ (b' ++ c) := by
  intro y hy
  simp only [List.mem_append] at hy ⊢
  exact hy.imp_right (Or.imp_left (@h y))

end Perm

theorem forall₂_flatMap {α β γ : Type} {R : β → γ → Prop} {f : α → List β} {g : α → List γ} {xs : List α}
    (h : ∀ x ∈ xs, List.Forall₂ R (f x) (g x)) : List.Forall₂ R (xs.flatMap f) (xs.flatMap g) := by
  induction xs with
  | nil => exact .nil
  | cons x xs ih =>
    rw [List.flatMap_cons, List.flatMap_cons]
    exact List.rel_append (h x List.mem_cons_self) (ih fun y hy => h y (List.mem_cons_of_mem x hy))

theorem forall₂_trans {α β γ : Type} {R : α → β → Prop} {S : β → γ → Prop} {T : α → γ → Prop}
    (h : ∀ x y z, R x y → S y z → T x z) {xs : List α} {ys : List β} {zs : List γ} (hxy : List.Forall₂ R xs ys)
    (hyz : List.Forall₂ S ys zs) : List.Forall₂ T xs zs := by
  induction hxy generalizing zs with
  | nil =>
    cases hyz
    exact .nil
  | cons hr _ ih =>
    cases hyz with
    | cons hs hyz => exact .cons (h _ _ _ hr hs) (ih hyz)

theorem exists_of_forall₂ {α β : Type} {R : α → β → Prop} {xs : List α} {ys : List β} (h : List.Forall₂ R xs ys)
    {x : α} (hx : x ∈ xs) : ∃ y ∈ ys, R x y := by
  induction h with
  | nil => cases hx
  | @cons z y xs ys hr _ ih =>
    rcases List.mem_cons.1 hx with rfl | hx
    · exact ⟨y, List.mem_cons_self, hr⟩
    · obtain ⟨w, hw, hxw⟩ := ih hx
      exact ⟨w, List.mem_cons_of_mem y hw, hxw⟩

structure Traverses {ε α β : Type} (one : α → Except ε β) (each : List α → Except ε (List β)) : Prop where
  nil : each [] = .ok []
  cons : ∀ x xs, each (x :: xs) = do
    let y ← one x
    let ys ← each xs
    return y :: ys

namespace Traverses

variable {ε α β γ : Type} {one : α → Except ε β} {each : List α → Except ε (List β)} {xs : List α} {ys : List β}
  (h : Traverses one each)
include h

theorem eq_ok : each xs = .ok ys ↔ List.Forall₂ (fun x y => one x = .ok y) xs ys := by
  induction xs generalizing ys with
  | nil =>
    rw [h.nil]
    constructor
    · rintro ⟨⟩
      exact .nil
    · rintro ⟨⟩
      rfl
  | cons x xs ih =>
    rw [h.cons, bind₂_eq_ok]
    constructor
    · rintro ⟨y, rest, hy, hrest, rfl⟩
      exact .cons hy (ih.1 hrest)
    · intro hall
      obtain ⟨y, rest, hy, hrest, rfl⟩ := List.forall₂_cons_left_iff.1 hall
      exact ⟨y, rest, hy, ih.2 hrest, rfl⟩

theorem eq_error {e : ε} : each xs = .error e ↔
    ∃ before x after, xs = before ++ x :: after ∧ (∀ b ∈ before, ∃ y, one b = .ok y) ∧ one x = .error e := by
  induction xs with
  | nil => simp [h.nil]
  | cons x xs ih =>
    rw [h.cons, bind_eq_error]
    constructor
    · rintro (hx | ⟨y, hy, hrest⟩)
      · exact ⟨[], x, xs, rfl, by simp, hx⟩
      · rcases bind_eq_error.1 hrest with hxs | ⟨ys, -, hpure⟩
        · obtain ⟨before, x', after, rfl, hbefore, hx'⟩ := ih.1 hxs
          exact ⟨x :: before, x', after, rfl, List.forall_mem_cons.2 ⟨⟨y, hy⟩, hbefore⟩, hx'⟩
        · cases hpure
    · rintro ⟨before, x', after, hsplit, hbefore, hx'⟩
      cases before with
      | nil =>
        cases hsplit
        exact .inl hx'
      | cons b before =>
        cases hsplit
        obtain ⟨⟨y, hy⟩, hbefore⟩ := List.forall_mem_cons.1 hbefore
        exact .inr ⟨y, hy, bind_eq_error.2 (.inl (ih.2 ⟨before, x', after, rfl, hbefore, hx'⟩))⟩

theorem append_eq_ok {xs' : List α} {zs : List β} :
    each (xs ++ xs') = .ok zs ↔ ∃ ys ys', each xs = .ok ys ∧ each xs' = .ok ys' ∧ zs = ys ++ ys' := by
  induction xs generalizing zs with
  | nil => simp [h.nil]
  | cons x xs ih =>
    rw [List.cons_append, h.cons, bind₂_eq_ok]
    simp only [ih, h.cons, bind₂_eq_ok]
    constructor
    · rintro ⟨y, -, hy, ⟨ys, ys', hys, hys', rfl⟩, rfl⟩
      exact ⟨_, ys', ⟨y, ys, hy, hys, rfl⟩, hys', rfl⟩
    · rintro ⟨-, ys', ⟨y, ys, hy, hys, rfl⟩, hys', rfl⟩
      exact ⟨y, _, hy, ⟨ys, ys', hys, hys', rfl⟩, rfl⟩

theorem length_eq (e : each xs = .ok ys) : ys.length = xs.length := (h.eq_ok.1 e).length_eq.symm

theorem map_eq {q : β → γ} {r : α → γ} (hq : ∀ x y, one x = .ok y → q y = r x) (e : each xs = .ok ys) :
    ys.map q = xs.map r := by
  have hall := h.eq_ok.1 e
  clear e
  induction hall with
  | nil => rfl
  | cons hy _ ih => rw [List.map_cons, List.map_cons, hq _ _ hy, ih]

theorem eq_map {r : α → β} (hr : ∀ x y, one x = .ok y → y = r x) (e : each xs = .ok ys) : ys = xs.map r := by
  have hmap := h.map_eq (q := id) hr e
  rwa [List.map_id] at hmap

theorem exists_of_mem (e : each xs = .ok ys) {y : β} (hy : y ∈ ys) : ∃ x ∈ xs, one x = .ok y :=
  exists_of_forall₂ (h.eq_ok.1 e).flip hy

theorem exists_result (e : each xs = .ok ys) {x : α} (hx : x ∈ xs) : ∃ y ∈ ys, one x = .ok y :=
  exists_of_forall₂ (h.eq_ok.1 e) hx

theorem exists_ok (hone : ∀ x ∈ xs, ∃ y, one x = .ok y) : ∃ ys, each xs = .ok ys := by
  induction xs with
  | nil => exact ⟨[], h.nil⟩
  | cons x xs ih =>
    obtain ⟨y, hy⟩ := hone x List.mem_cons_self
    obtain ⟨ys, hys⟩ := ih fun z hz => hone z (List.mem_cons_of_mem x hz)
    exact ⟨y :: ys, by rw [h.cons, hy, hys]; rfl⟩

theorem failsOnly {P : ε → Prop} (hone : ∀ x ∈ xs, FailsOnly P (one x)) : FailsOnly P (each xs) := by
  induction xs with
  | nil =>
    rw [h.nil]
    exact .ok _
  | cons x xs ih =>
    rw [h.cons]
    apply (hone x List.mem_cons_self).bind
    intro y _
    apply (ih fun z hz => hone z (List.mem_cons_of_mem x hz)).bind
    intro ys _
    exact .ok _

end Traverses

end LoopNest
