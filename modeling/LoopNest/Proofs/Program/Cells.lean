import LoopNest.Program.Basic

namespace LoopNest

theorem getD_setIfInBounds {α : Type} {cells : Array α} {n : Nat} (h : n < cells.size) (x d : α) (m : Nat) :
    (cells.setIfInBounds n x).getD m d = if n = m then x else cells.getD m d := by
  simp only [Array.getD_eq_getD_getElem?]
  by_cases hnm : n = m
  · subst hnm
    simp [h]
  · simp [hnm, Array.getElem?_setIfInBounds_ne]

theorem ext_getD {α : Type} {cells cells' : Array α} {x : α} (hsize : cells.size = cells'.size)
    (h : ∀ n, cells.getD n x = cells'.getD n x) : cells = cells' := by
  refine Array.ext hsize fun n hn hn' => ?_
  simpa [Array.getD_eq_getD_getElem?, hn, hn'] using h n

def setCell {α : Type} (cells : Array (Array α)) (b n : Nat) (x : α) : Array (Array α) :=
  cells.modify b fun entries => entries.setIfInBounds n x

namespace Program

structure Shaped {α : Type} (p : Program) (cells : Array (Array α)) : Prop where
  size : cells.size = p.buffers.length
  entries : ∀ b buffer, p.buffers[b]? = some buffer → (cells.getD b #[]).size = buffer.volume

variable {α : Type} {p : Program} {cells cells' : Array (Array α)}

theorem getD_setCell (cells : Array (Array α)) (b n : Nat) (x : α) (b' : Nat) :
    (setCell cells b n x).getD b' #[] =
      if b = b' then (cells.getD b' #[]).setIfInBounds n x else cells.getD b' #[] := by
  simp only [setCell, Array.getD_eq_getD_getElem?, Array.getElem?_modify]
  by_cases h : b = b'
  · subst h
    cases cells[b]? <;> simp
  · simp [h]

theorem Shaped.setCell (h : p.Shaped cells) (b n : Nat) (x : α) : p.Shaped (setCell cells b n x) := by
  refine ⟨by simpa [LoopNest.setCell] using h.size, ?_⟩
  intro b' buffer hb
  rw [getD_setCell]
  split
  · rw [Array.size_setIfInBounds, h.entries b' buffer hb]
  · exact h.entries b' buffer hb

theorem Shaped.getD_setCell (h : p.Shaped cells) {b n : Nat} {buffer : Buffer}
    (hb : p.buffers[b]? = some buffer) (hn : n < buffer.volume) (x d : α) (b' n' : Nat) :
    ((LoopNest.setCell cells b n x).getD b' #[]).getD n' d =
      if b = b' ∧ n = n' then x else (cells.getD b' #[]).getD n' d := by
  have hlt : n < (cells.getD b #[]).size := by rw [h.entries b buffer hb]; exact hn
  rw [Program.getD_setCell]
  by_cases hbb : b = b'
  · subst hbb
    rw [if_pos rfl, getD_setIfInBounds hlt]
    simp only [true_and]
  · rw [if_neg hbb, if_neg fun he => hbb he.1]

theorem Shaped.getD_eq (h : p.Shaped cells) (h' : p.Shaped cells') {d : α}
    (he : ∀ b n, (cells.getD b #[]).getD n d = (cells'.getD b #[]).getD n d) (b : Nat) :
    cells.getD b #[] = cells'.getD b #[] := by
  refine ext_getD ?_ (he b)
  cases hb : p.buffers[b]? with
  | some buffer => rw [h.entries b buffer hb, h'.entries b buffer hb]
  | none =>
    have hlen := List.getElem?_eq_none_iff.1 hb
    have hb₁ : ¬ b < cells.size := h.size ▸ Nat.not_lt.2 hlen
    have hb₂ : ¬ b < cells'.size := h'.size ▸ Nat.not_lt.2 hlen
    simp [Array.getD_eq_getD_getElem?, hb₁, hb₂]

theorem Shaped.ext (h : p.Shaped cells) (h' : p.Shaped cells') {d : α}
    (he : ∀ b n, (cells.getD b #[]).getD n d = (cells'.getD b #[]).getD n d) : cells = cells' :=
  ext_getD (h.size.trans h'.size.symm) (h.getD_eq h' he)

theorem Shaped.lt_size (h : p.Shaped cells) {b : Nat} {buffer : Buffer} (hb : p.buffers[b]? = some buffer) :
    b < cells.size := by
  rw [h.size]
  exact (List.getElem?_eq_some_iff.1 hb).1

end Program

end LoopNest
