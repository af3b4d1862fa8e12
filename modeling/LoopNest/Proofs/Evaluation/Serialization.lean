import LoopNest.Proofs.Evaluation.SharedCache

namespace LoopNest.SharedCache

open Function (update)

variable {T K : Type} [DecidableEq T] {capacity : Nat} {s s' : State T K} {kernels : String → Option Nat}
  {order : List String} {slots : Nat → Option K} {phases : T → Phase} {t : T} {key : String} {p : Phase}

def Kept (key : String) (kernels : String → Option Nat) (slots : Nat → Option K) : Prop :=
  ∃ cell, kernels key = some cell ∧ slots cell ≠ none

def Phase.settles : Phase → Option String
  | filled key _ | remembering key | dropping key => some key
  | _ => none

def Phase.Settles (key : String) (kernels : String → Option Nat) (slots : Nat → Option K) : Phase → Prop
  | waiting key' cell | looking key' cell | building key' cell =>
    key' = key → kernels key = some cell ∨ slots cell ≠ none
  | filled key' _ | remembering key' | dropping key' => key' = key → Kept key kernels slots
  | _ => True

structure Settled (key : String) (kernels : String → Option Nat) (slots : Nat → Option K) (order : List String)
    (phases : T → Phase) : Prop where
  fits : ∀ t, (phases t).Settles key kernels slots
  queued : key ∈ order → Kept key kernels slots
  once : order.count key ≤ 1
  apart : key ∈ order → ∀ t, (phases t).settles ≠ some key
  single : ∀ t t', (phases t).settles = some key → (phases t').settles = some key → t = t'

theorem Kept.fill (h : Kept key kernels slots) (cell : Nat) (k : K) :
    Kept key kernels (update slots cell (some k)) := by
  obtain ⟨c, hc, hslot⟩ := h
  refine ⟨c, hc, ?_⟩
  rw [Function.update_apply]
  split
  · exact Option.some_ne_none k
  · exact hslot

namespace Phase.Settles

theorem fill (h : p.Settles key kernels slots) (cell : Nat) (k : K) :
    p.Settles key kernels (update slots cell (some k)) := by
  have hslots (c : Nat) (hslot : slots c ≠ none) : update slots cell (some k) c ≠ none := by
    rw [Function.update_apply]
    split
    · exact Option.some_ne_none k
    · exact hslot
  cases p with
  | waiting key' c | looking key' c | building key' c => exact fun hkey => (h hkey).imp_right (hslots c)
  | filled | remembering | dropping => exact fun hkey => (h hkey).fill cell k
  | _ => trivial

theorem kept (h : p.Settles key kernels slots) (hp : p.settles = some key) : Kept key kernels slots := by
  cases p with
  | filled | remembering | dropping => exact h (Option.some.inj hp)
  | _ => cases hp

theorem remap {kernels' : String → Option Nat} (h : p.Settles key kernels slots) (hp : p.settles ≠ some key)
    (hfull : ∀ cell, kernels key = some cell → slots cell ≠ none) : p.Settles key kernels' slots := by
  cases p with
  | waiting key' cell | looking key' cell | building key' cell =>
    exact fun hkey => Or.inr ((h hkey).elim (hfull cell) id)
  | filled | remembering | dropping => exact fun hkey => absurd (congrArg some hkey) hp
  | _ => trivial

theorem congr {kernels' : String → Option Nat} (h : p.Settles key kernels slots) (hsame : kernels' key = kernels key) :
    p.Settles key kernels' slots := by
  have hkept : Kept key kernels slots → Kept key kernels' slots := fun ⟨c, hc, hslot⟩ => ⟨c, hsame.trans hc, hslot⟩
  cases p with
  | waiting | looking | building => exact fun hkey => (h hkey).imp_left hsame.trans
  | filled | remembering | dropping => exact fun hkey => hkept (h hkey)
  | _ => trivial

end Phase.Settles

namespace Settled

variable (h : Settled key kernels slots order phases)
include h

theorem goes (hp : p.Settles key kernels slots) (hsettles : p.settles = some key → (phases t).settles = some key) :
    Settled key kernels slots order (update phases t p) := by
  have hback (t') (h' : (update phases t p t').settles = some key) : (phases t').settles = some key := by
    rw [Function.update_apply] at h'
    split at h'
    · next heq => exact heq ▸ hsettles h'
    · exact h'
  exact
    { h with
      fits := (Function.forall_update_iff phases fun _ p => p.Settles key kernels slots).2 ⟨hp, fun t' _ => h.fits t'⟩
      apart := fun hmem t' h' => h.apart hmem t' (hback t' h')
      single := fun t₁ t₂ h₁ h₂ => h.single t₁ t₂ (hback t₁ h₁) (hback t₂ h₂) }

omit [DecidableEq T] in
theorem fill (cell : Nat) (k : K) : Settled key kernels (update slots cell (some k)) order phases :=
  { h with
    fits := fun t => (h.fits t).fill cell k
    queued := fun hmem => (h.queued hmem).fill cell k }

omit [DecidableEq T] in
theorem congr {kernels' : String → Option Nat} (hsame : kernels' key = kernels key) :
    Settled key kernels' slots order phases :=
  { h with
    fits := fun t => (h.fits t).congr hsame
    queued := fun hmem => (h.queued hmem).imp fun _ => And.imp_left hsame.trans }

omit [DecidableEq T] in
theorem absent (hkept : ¬ Kept key kernels slots) : key ∉ order ∧ ∀ t, (phases t).settles ≠ some key :=
  ⟨fun hmem => hkept (h.queued hmem), fun t ht => hkept ((h.fits t).kept ht)⟩

omit [DecidableEq T] in
theorem remap {kernels' : String → Option Nat} (hqueue : key ∉ order) (hphases : ∀ t, (phases t).settles ≠ some key)
    (hfull : ∀ cell, kernels key = some cell → slots cell ≠ none) : Settled key kernels' slots order phases :=
  { h with
    fits := fun t => (h.fits t).remap (hphases t) hfull
    queued := fun hmem => absurd hmem hqueue }

omit [DecidableEq T] in
theorem requeue {order' : List String} (hcount : order'.count key = order.count key) :
    Settled key kernels slots order' phases := by
  have hmem (hmem : key ∈ order') : key ∈ order := by
    rwa [← List.count_pos_iff, ← hcount, List.count_pos_iff]
  exact
    { h with
      queued := fun hq => h.queued (hmem hq)
      once := hcount ▸ h.once
      apart := fun hq => h.apart (hmem hq) }

theorem settle {order' : List String} (hp : p.Settles key kernels slots) (hphases : ∀ t, (phases t).settles ≠ some key)
    (hqueue : key ∉ order') : Settled key kernels slots order' (update phases t p) where
  fits := (Function.forall_update_iff phases fun _ p => p.Settles key kernels slots).2 ⟨hp, fun t' _ => h.fits t'⟩
  queued := fun hmem => absurd hmem hqueue
  once := by rw [List.count_eq_zero.2 hqueue]; omega
  apart := fun hmem => absurd hmem hqueue
  single := by
    have heq (t') (h' : (update phases t p t').settles = some key) : t' = t := by
      by_contra hne
      rw [Function.update_of_ne hne] at h'
      exact hphases t' h'
    exact fun t₁ t₂ h₁ h₂ => (heq t₁ h₁).trans (heq t₂ h₂).symm

theorem settles_ne (ht : (phases t).settles = some key) (hp : p.settles ≠ some key) (t' : T) :
    (update phases t p t').settles ≠ some key := by
  intro h'
  rw [Function.update_apply] at h'
  split at h'
  · exact hp h'
  · next hne => exact hne (h.single t' t h' ht)

theorem enqueue (ht : phases t = .remembering key) :
    Settled key kernels slots (order ++ [key]) (update phases t .evicting) := by
  have hkept : Kept key kernels slots := (h.fits t).kept (by rw [ht]; rfl)
  have hqueue : key ∉ order := fun hmem => h.apart hmem t (by rw [ht]; rfl)
  exact
    { h.goes (t := t) (p := .evicting) trivial nofun with
      queued := fun _ => hkept
      once := by rw [List.count_append, List.count_eq_zero.2 hqueue, List.count_singleton_self]
      apart := fun _ => h.settles_ne (by rw [ht]; rfl) nofun }

theorem drop (ht : phases t = .dropping key) :
    Settled key (update kernels key none) slots order (update phases t .evicting) := by
  obtain ⟨cell, hcell, hslot⟩ := (h.fits t).kept (by rw [ht]; rfl)
  refine (h.goes (t := t) (p := .evicting) trivial nofun).remap (fun hmem => h.apart hmem t (by rw [ht]; rfl))
    (h.settles_ne (by rw [ht]; rfl) nofun) fun c hc => ?_
  cases hcell.symm.trans hc
  exact hslot

end Settled

theorem Settled.step (hsound : Sound s.kernels s.cells s.slots s.outcomes s.phases)
    (h : Settled key s.kernels s.slots s.order s.phases) (hstep : Step capacity s s')
    (hfine : (key, none) ∉ s.outcomes) : Settled key s'.kernels s'.slots s'.order s'.phases := by
  have hfits := h.fits
  cases hstep with
  | call | hit | fail | leave | giveUp | finish => exact h.goes trivial nofun
  | @find t key' cell ht hcell => exact h.goes (fun hkey => Or.inl (hkey ▸ hcell)) nofun
  | @insert t key' ht hnone =>
    by_cases hkey : key' = key
    · subst hkey
      obtain ⟨hqueue, hphases⟩ := h.absent fun ⟨cell, hcell, _⟩ => nomatch hnone.symm.trans hcell
      refine (h.remap hqueue hphases fun cell hcell => nomatch hnone.symm.trans hcell).goes (fun _ => Or.inl ?_) nofun
      exact Function.update_self _ _ _
    · exact (h.congr (Function.update_of_ne (Ne.symm hkey) _ _)).goes (fun hsame => absurd hsame hkey) nofun
  | @lock t key' cell ht | @miss t key' cell ht =>
    have hcell := hfits t
    rw [ht] at hcell
    exact h.goes hcell nofun
  | @succeed t key' cell k ht =>
    by_cases hkey : key' = key
    · subst hkey
      -- the call builds for the cell that the map has, which is empty
      have hcell := hfits t
      have hempty := hsound.fits t
      rw [ht] at hcell hempty
      have hmapped : s.kernels key' = some cell := (hcell rfl).resolve_right fun hslot => hslot hempty.2
      obtain ⟨hqueue, hphases⟩ := h.absent fun ⟨c, hc, hslot⟩ => by
        cases hmapped.symm.trans hc
        exact hslot hempty.2
      refine (h.fill cell k).settle (fun _ => ⟨cell, hmapped, ?_⟩) hphases hqueue
      rw [Function.update_self]
      exact Option.some_ne_none k
    · exact (h.fill cell k).goes (fun hsame => absurd hsame hkey) fun hsame => absurd (Option.some.inj hsame) hkey
  | @forget t key' ht =>
    -- only a failed build is forgotten, and none of this key has failed
    have hfailed := hsound.fits t
    rw [ht] at hfailed
    have hkey : key ≠ key' := by
      rintro rfl
      exact hfine hfailed
    exact (h.congr (Function.update_of_ne hkey _ _)).goes trivial nofun
  | @keep t key' cell ht =>
    have hkept := hfits t
    rw [ht] at hkept
    exact h.goes hkept fun hsame => by rwa [ht]
  | @enqueue t key' ht =>
    by_cases hkey : key' = key
    · subst hkey
      exact h.enqueue ht
    · refine (h.requeue ?_).goes trivial nofun
      rw [List.count_append, List.count_singleton, if_neg (by simpa using hkey), Nat.add_zero]
  | @dequeue t oldest rest ht horder =>
    rw [horder] at h
    by_cases hkey : oldest = key
    · subst hkey
      -- the key was in the queue once, so it is not in what is left
      have honce := h.once
      rw [List.count_cons_self] at honce
      have hrest : oldest ∉ rest := List.count_eq_zero.1 (by omega)
      exact h.settle (fun _ => h.queued List.mem_cons_self) (h.apart List.mem_cons_self) hrest
    · refine (h.requeue (List.count_cons_of_ne hkey).symm).goes (fun hsame => absurd hsame hkey) ?_
      exact fun hsame => absurd (Option.some.inj hsame) hkey
  | @drop t oldest ht =>
    by_cases hkey : oldest = key
    · subst hkey
      exact h.drop ht
    · exact (h.congr (Function.update_of_ne (Ne.symm hkey) _ _)).goes trivial nofun

theorem Step.outcomes_subset (h : Step capacity s s') : s.outcomes ⊆ s'.outcomes := by
  cases h with
  | succeed | fail => exact List.subset_append_left _ _
  | _ => exact List.Subset.refl _

theorem Reachable.settled (h : Reachable capacity s) (hfine : (key, none) ∉ s.outcomes) :
    Settled key s.kernels s.slots s.order s.phases := by
  induction h with
  | start => exact ⟨fun t => trivial, nofun, Nat.zero_le 1, nofun, nofun⟩
  | step h hstep ih =>
    have hbefore := fun hmem => hfine (hstep.outcomes_subset hmem)
    exact (ih hbefore).step h.sound hstep hbefore

/-- Whatever the interleaving: no cell has two builds in progress. As long as no build of a key has failed, the key has
no two builds in progress, is in the queue once, and when it is there the map has a kernel that was built for it. -/
theorem Reachable.serialized (h : Reachable capacity s) :
    (∀ t t' key key' cell, s.phases t = .building key cell → s.phases t' = .building key' cell → t = t') ∧
    ∀ key, (key, none) ∉ s.outcomes →
      (∀ t t' cell cell', s.phases t = .building key cell → s.phases t' = .building key cell' → t = t') ∧
      s.order.count key ≤ 1 ∧
      (key ∈ s.order → ∃ cell k, s.kernels key = some cell ∧ s.slots cell = some k ∧ (key, some k) ∈ s.outcomes) := by
  have hone (t t' key key' cell) (ht : s.phases t = .building key cell) (ht' : s.phases t' = .building key' cell) :
      t = t' := (h.locked.cell cell).eq (by rw [ht]; rfl) (by rw [ht']; rfl)
  refine ⟨hone, fun key hfine => ?_⟩
  have hsettled := h.settled hfine
  have hmapped (t cell) (ht : s.phases t = .building key cell) : s.kernels key = some cell := by
    have hcell := hsettled.fits t
    have hempty := h.sound.fits t
    rw [ht] at hcell hempty
    exact (hcell rfl).resolve_right fun hslot => hslot hempty.2
  refine ⟨fun t t' cell cell' ht ht' => ?_, hsettled.once, fun hmem => ?_⟩
  · cases (hmapped t cell ht).symm.trans (hmapped t' cell' ht')
    exact hone t t' key key cell ht ht'
  · obtain ⟨cell, hcell, hslot⟩ := hsettled.queued hmem
    obtain ⟨k, hk⟩ := Option.ne_none_iff_exists'.1 hslot
    obtain ⟨key', hkey', hbuilt⟩ := h.sound.built cell k hk
    cases (h.sound.mapped key cell hcell).symm.trans hkey'
    exact ⟨cell, k, hcell, hk, hbuilt⟩

theorem serialized_twoCalls : ∃ s : State (Fin 2) Nat, Reachable 1 s ∧ s.phases 1 = .waiting "" 0 ∧ s.order = [""] ∧
    s.order.count "" ≤ 1 ∧ ∃ cell k, s.kernels "" = some cell ∧ s.slots cell = some k ∧ ("", some k) ∈ s.outcomes := by
  obtain ⟨s, h, hphase, horder, hfine⟩ : ∃ s : State (Fin 2) Nat, Reachable 1 s ∧ s.phases 1 = .waiting "" 0 ∧
      s.order = [""] ∧ ("", none) ∉ s.outcomes := by
    have h : Reachable 1 ({} : State (Fin 2) Nat) := .start
    replace h := h.step (.call (t := 0) "" rfl)
    replace h := h.step (.insert (t := 0) rfl rfl)
    replace h := h.step (.call (t := 1) "" rfl)
    replace h := h.step (.find (t := 1) rfl rfl)
    replace h := h.step (.lock (t := 0) rfl rfl)
    replace h := h.step (.miss (t := 0) rfl rfl)
    replace h := h.step (.succeed (t := 0) 7 rfl)
    replace h := h.step (.keep (t := 0) rfl)
    replace h := h.step (.enqueue (t := 0) rfl rfl)
    exact ⟨_, h, rfl, rfl, by decide⟩
  obtain ⟨-, honce, hkept⟩ := (Reachable.serialized h).2 "" hfine
  exact ⟨s, h, hphase, horder, honce, hkept (by rw [horder]; exact List.mem_singleton_self _)⟩

/-- A build fails while a second call waits for its cell, and a third call comes when the map has lost the cell: two
builds of one key are in progress; the key is then queued twice; and with room for one kernel the queue ends up with a
key that has none. -/
theorem failed_build_races : ∃ s₁ s₂ s₃ : State (Fin 3) Nat,
    (Reachable 1 s₁ ∧ ∃ cell cell', s₁.phases 1 = .building "" cell ∧ s₁.phases 2 = .building "" cell') ∧
    (Reachable 1 s₂ ∧ s₂.order = ["", ""]) ∧
    (Reachable 1 s₃ ∧ (∀ t, s₃.phases t = .idle) ∧ s₃.order = [""] ∧ s₃.kernels "" = none) := by
  have h₁ : Reachable 1 ({} : State (Fin 3) Nat) := .start
  -- the first call builds, and the second one waits for its cell
  replace h₁ := h₁.step (.call (t := 0) "" rfl)
  replace h₁ := h₁.step (.insert (t := 0) rfl rfl)
  replace h₁ := h₁.step (.lock (t := 0) rfl rfl)
  replace h₁ := h₁.step (.miss (t := 0) rfl rfl)
  replace h₁ := h₁.step (.call (t := 1) "" rfl)
  replace h₁ := h₁.step (.find (t := 1) rfl rfl)
  -- the build fails; the second call finds the cell empty and builds
  replace h₁ := h₁.step (.fail (t := 0) rfl)
  replace h₁ := h₁.step (.giveUp (t := 0) rfl)
  replace h₁ := h₁.step (.lock (t := 1) rfl rfl)
  replace h₁ := h₁.step (.miss (t := 1) rfl rfl)
  -- the first call takes the cell out of the map, where the third one misses it and builds, too
  replace h₁ := h₁.step (.forget (t := 0) rfl)
  replace h₁ := h₁.step (.call (t := 2) "" rfl)
  replace h₁ := h₁.step (.insert (t := 2) rfl rfl)
  replace h₁ := h₁.step (.lock (t := 2) rfl rfl)
  replace h₁ := h₁.step (.miss (t := 2) rfl rfl)
  -- both builds succeed, and each is queued
  have h₂ := h₁.step (.succeed (t := 1) 7 rfl)
  replace h₂ := h₂.step (.keep (t := 1) rfl)
  replace h₂ := h₂.step (.enqueue (t := 1) rfl rfl)
  replace h₂ := h₂.step (.finish (t := 1) rfl (by decide))
  replace h₂ := h₂.step (.succeed (t := 2) 7 rfl)
  replace h₂ := h₂.step (.keep (t := 2) rfl)
  replace h₂ := h₂.step (.enqueue (t := 2) rfl rfl)
  -- to make room the map gives up the cell of the key that stays in the queue
  have h₃ := h₂.step (.dequeue (t := 2) rfl rfl (by decide))
  replace h₃ := h₃.step (.drop (t := 2) rfl)
  replace h₃ := h₃.step (.finish (t := 2) rfl (by decide))
  exact ⟨_, _, _, ⟨h₁, 0, 1, rfl, rfl⟩, ⟨h₂, rfl⟩, h₃, by decide, rfl, rfl⟩

end LoopNest.SharedCache
