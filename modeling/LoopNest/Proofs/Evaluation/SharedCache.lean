import LoopNest.Proofs.Evaluation.KernelCache

/-!
The cache of built kernels under calls from several threads. A call takes its cell out of the map, builds under the
lock of the cell, and enters its key into the queue under the lock of the queue; between these steps the other threads
take theirs.
-/

namespace LoopNest

namespace SharedCache

inductive Phase where
  | idle
  | entering (key : String)
  | waiting (key : String) (cell : Nat)
  | looking (key : String) (cell : Nat)
  | building (key : String) (cell : Nat)
  | answered (cell : Nat)
  | failed (key : String) (cell : Nat)
  | forgetting (key : String)
  | filled (key : String) (cell : Nat)
  | remembering (key : String)
  | evicting
  | dropping (oldest : String)
  deriving DecidableEq

namespace Phase

def holds : Phase → Option Nat
  | looking _ cell | building _ cell | answered cell | failed _ cell | filled _ cell => some cell
  | _ => none

def records : Phase → Bool
  | evicting | dropping _ => true
  | _ => false

end Phase

/-- Cells go by number; `cells` has the keys that they were made for, and `outcomes` tells how the builds so far have
ended, which no step depends on. -/
structure State (T K : Type) where
  kernels : String → Option Nat := fun _ => none
  cells : List String := []
  slots : Nat → Option K := fun _ => none
  holders : Nat → Option T := fun _ => none
  order : List String := []
  recorder : Option T := none
  phases : T → Phase := fun _ => .idle
  outcomes : List (String × Option K) := []

open Function (update)

variable {T K : Type} [DecidableEq T] {capacity : Nat}

def State.goes (s : State T K) (t : T) (p : Phase) : State T K := { s with phases := update s.phases t p }

/-- What a thread can do next, whatever the others are at. -/
inductive Step (capacity : Nat) (s : State T K) : State T K → Prop
  | call {t} (key) : s.phases t = .idle → Step capacity s (s.goes t (.entering key))
  | find {t key cell} : s.phases t = .entering key → s.kernels key = some cell →
      Step capacity s (s.goes t (.waiting key cell))
  | insert {t key} : s.phases t = .entering key → s.kernels key = none →
      Step capacity s
        { s.goes t (.waiting key s.cells.length) with
          kernels := update s.kernels key (some s.cells.length), cells := s.cells ++ [key] }
  | lock {t key cell} : s.phases t = .waiting key cell → s.holders cell = none →
      Step capacity s { s.goes t (.looking key cell) with holders := update s.holders cell (some t) }
  | hit {t key cell k} : s.phases t = .looking key cell → s.slots cell = some k →
      Step capacity s (s.goes t (.answered cell))
  | miss {t key cell} : s.phases t = .looking key cell → s.slots cell = none →
      Step capacity s (s.goes t (.building key cell))
  | succeed {t key cell} (k) : s.phases t = .building key cell →
      Step capacity s
        { s.goes t (.filled key cell) with
          slots := update s.slots cell (some k), outcomes := s.outcomes ++ [(key, some k)] }
  | fail {t key cell} : s.phases t = .building key cell →
      Step capacity s { s.goes t (.failed key cell) with outcomes := s.outcomes ++ [(key, none)] }
  | leave {t cell} : s.phases t = .answered cell →
      Step capacity s { s.goes t .idle with holders := update s.holders cell none }
  | giveUp {t key cell} : s.phases t = .failed key cell →
      Step capacity s { s.goes t (.forgetting key) with holders := update s.holders cell none }
  | forget {t key} : s.phases t = .forgetting key →
      Step capacity s { s.goes t .idle with kernels := update s.kernels key none }
  | keep {t key cell} : s.phases t = .filled key cell →
      Step capacity s { s.goes t (.remembering key) with holders := update s.holders cell none }
  | enqueue {t key} : s.phases t = .remembering key → s.recorder = none →
      Step capacity s { s.goes t .evicting with order := s.order ++ [key], recorder := some t }
  | dequeue {t oldest rest} : s.phases t = .evicting → s.order = oldest :: rest → capacity < s.order.length →
      Step capacity s { s.goes t (.dropping oldest) with order := rest }
  | drop {t oldest} : s.phases t = .dropping oldest →
      Step capacity s { s.goes t .evicting with kernels := update s.kernels oldest none }
  | finish {t} : s.phases t = .evicting → s.order.length ≤ capacity →
      Step capacity s { s.goes t .idle with recorder := none }

inductive Reachable (capacity : Nat) : State T K → Prop
  | start : Reachable capacity {}
  | step {s s' : State T K} : Reachable capacity s → Step capacity s s' → Reachable capacity s'

variable {s s' : State T K} {kernels : String → Option Nat} {cells order : List String} {slots : Nat → Option K}
  {holders : Nat → Option T} {recorder : Option T} {phases : T → Phase} {outcomes : List (String × Option K)}
  {t : T} {key : String} {cell : Nat} {p : Phase}

section Locks

def Guards (holder : Option T) (inside : Phase → Prop) (phases : T → Phase) : Prop :=
  ∀ t, holder = some t ↔ inside (phases t)

namespace Guards

variable {holder : Option T} {inside : Phase → Prop}

theorem stays (h : Guards holder inside phases) (hp : inside p ↔ inside (phases t)) :
    Guards holder inside (update phases t p) :=
  (Function.forall_update_iff phases fun t p => holder = some t ↔ inside p).2
    ⟨(h t).trans hp.symm, fun t' _ => h t'⟩

theorem taken (h : Guards none inside phases) (hp : inside p) : Guards (some t) inside (update phases t p) := by
  refine (Function.forall_update_iff phases fun t' p => some t = some t' ↔ inside p).2
    ⟨iff_of_true rfl hp, fun t' hne => iff_of_false ?_ ?_⟩
  · exact fun hsame => hne (Option.some.inj hsame).symm
  · exact fun hinside => nomatch (h t').2 hinside

theorem released (h : Guards holder inside phases) (ht : inside (phases t)) (hp : ¬ inside p) :
    Guards none inside (update phases t p) := by
  refine (Function.forall_update_iff phases fun t' p => none = some t' ↔ inside p).2
    ⟨iff_of_false nofun hp, fun t' hne => iff_of_false nofun fun hinside => hne ?_⟩
  exact Option.some.inj (((h t').2 hinside).symm.trans ((h t).2 ht))

omit [DecidableEq T] in
theorem eq (h : Guards holder inside phases) {t' : T} (ht : inside (phases t)) (ht' : inside (phases t')) : t = t' :=
  Option.some.inj (((h t).2 ht).symm.trans ((h t').2 ht'))

end Guards

structure Locked (holders : Nat → Option T) (recorder : Option T) (phases : T → Phase) : Prop where
  cell : ∀ cell, Guards (holders cell) (Phase.holds · = some cell) phases
  queue : Guards recorder (Phase.records · = true) phases

namespace Locked

variable (h : Locked holders recorder phases)
include h

theorem stays (hholds : p.holds = (phases t).holds) (hrecords : p.records = (phases t).records) :
    Locked holders recorder (update phases t p) :=
  ⟨fun cell => (h.cell cell).stays (by rw [hholds]), h.queue.stays (by rw [hrecords])⟩

theorem taken (hfree : holders cell = none) (ht : (phases t).holds = none) (hholds : p.holds = some cell)
    (hrecords : p.records = (phases t).records) :
    Locked (update holders cell (some t)) recorder (update phases t p) := by
  refine ⟨fun c => ?_, h.queue.stays (by rw [hrecords])⟩
  rw [Function.update_apply]
  split
  · next hc =>
    have hguards := h.cell cell
    rw [hfree] at hguards
    exact hc ▸ hguards.taken hholds
  · next hc => exact (h.cell c).stays (by simp [hholds, ht, Ne.symm hc])

theorem released (ht : (phases t).holds = some cell) (hholds : p.holds = none)
    (hrecords : p.records = (phases t).records) :
    Locked (update holders cell none) recorder (update phases t p) := by
  refine ⟨fun c => ?_, h.queue.stays (by rw [hrecords])⟩
  rw [Function.update_apply]
  split
  · next hc => exact hc ▸ (h.cell cell).released ht (by simp [hholds])
  · next hc => exact (h.cell c).stays (by simp [hholds, ht, Ne.symm hc])

end Locked

theorem Locked.step (h : Locked s.holders s.recorder s.phases) (hstep : Step capacity s s') :
    Locked s'.holders s'.recorder s'.phases := by
  cases hstep with
  | lock ht hfree => exact h.taken hfree (by rw [ht]; rfl) rfl (by rw [ht]; rfl)
  | leave ht | giveUp ht | keep ht => exact h.released (by rw [ht]; rfl) rfl (by rw [ht]; rfl)
  | enqueue ht hfree =>
    refine ⟨fun cell => (h.cell cell).stays (by rw [ht]; rfl), Guards.taken ?_ rfl⟩
    rw [← hfree]
    exact h.queue
  | finish ht =>
    exact ⟨fun cell => (h.cell cell).stays (by rw [ht]; rfl), h.queue.released (by rw [ht]; rfl) Bool.false_ne_true⟩
  | call key ht => exact h.stays (by rw [ht]; rfl) (by rw [ht]; rfl)
  | find ht | insert ht | hit ht | miss ht | succeed k ht | fail ht | forget ht | dequeue ht | drop ht =>
    exact h.stays (by rw [ht]; rfl) (by rw [ht]; rfl)

end Locks

section Cells

def Phase.Fits (cells : List String) (slots : Nat → Option K) (outcomes : List (String × Option K)) : Phase → Prop
  | waiting key cell | looking key cell => cells[cell]? = some key
  | building key cell => cells[cell]? = some key ∧ slots cell = none
  | failed key _ | forgetting key => (key, none) ∈ outcomes
  | _ => True

structure Sound (kernels : String → Option Nat) (cells : List String) (slots : Nat → Option K)
    (outcomes : List (String × Option K)) (phases : T → Phase) : Prop where
  mapped : ∀ key cell, kernels key = some cell → cells[cell]? = some key
  built : ∀ cell k, slots cell = some k → ∃ key, cells[cell]? = some key ∧ (key, some k) ∈ outcomes
  fits : ∀ t, (phases t).Fits cells slots outcomes

theorem getElem?_concat_of_some {l : List String} {a b : String} {n : Nat} (h : l[n]? = some a) :
    (l ++ [b])[n]? = some a := by
  rw [List.getElem?_append_left (List.getElem?_eq_some_iff.1 h).1, h]

namespace Phase.Fits

theorem insert (h : p.Fits cells slots outcomes) (key : String) : p.Fits (cells ++ [key]) slots outcomes := by
  cases p with
  | waiting | looking => exact getElem?_concat_of_some h
  | building => exact ⟨getElem?_concat_of_some h.1, h.2⟩
  | _ => exact h

theorem ended (h : p.Fits cells slots outcomes) (outcome : String × Option K) :
    p.Fits cells slots (outcomes ++ [outcome]) := by
  cases p with
  | failed | forgetting => exact List.mem_append_left _ h
  | _ => exact h

theorem fill (h : p.Fits cells slots outcomes) (k : K) (hp : p.holds ≠ some cell) :
    p.Fits cells (update slots cell (some k)) outcomes := by
  cases p with
  | building key c =>
    refine ⟨h.1, (Function.update_of_ne ?_ _ _).trans h.2⟩
    rintro rfl
    exact hp rfl
  | _ => exact h

end Phase.Fits

namespace Sound

variable (h : Sound kernels cells slots outcomes phases)
include h

theorem goes (hp : p.Fits cells slots outcomes) : Sound kernels cells slots outcomes (update phases t p) :=
  { h with
    fits := (Function.forall_update_iff phases fun _ p => p.Fits cells slots outcomes).2 ⟨hp, fun t' _ => h.fits t'⟩ }

omit [DecidableEq T] in
theorem insert (key : String) :
    Sound (update kernels key (some cells.length)) (cells ++ [key]) slots outcomes phases where
  mapped := by
    intro key' cell hcell
    rw [Function.update_apply] at hcell
    split at hcell
    · next hkey =>
      cases hcell
      rw [List.getElem?_concat_length, hkey]
    · exact getElem?_concat_of_some (h.mapped key' cell hcell)
  built := by
    intro cell k hk
    obtain ⟨key', hkey', hout⟩ := h.built cell k hk
    exact ⟨key', getElem?_concat_of_some hkey', hout⟩
  fits := fun t => (h.fits t).insert key

omit [DecidableEq T] in
theorem remove (key : String) : Sound (update kernels key none) cells slots outcomes phases where
  mapped := by
    intro key' cell hcell
    rw [Function.update_apply] at hcell
    split at hcell
    · cases hcell
    · exact h.mapped key' cell hcell
  built := h.built
  fits := h.fits

omit [DecidableEq T] in
theorem ended (outcome : String × Option K) : Sound kernels cells slots (outcomes ++ [outcome]) phases where
  mapped := h.mapped
  built := by
    intro cell k hk
    obtain ⟨key, hkey, hout⟩ := h.built cell k hk
    exact ⟨key, hkey, List.mem_append_left _ hout⟩
  fits := fun t => (h.fits t).ended outcome

theorem fill (hlocked : Guards (some t) (Phase.holds · = some cell) phases) (hcell : cells[cell]? = some key) {k : K}
    (hbuilt : (key, some k) ∈ outcomes) (hp : ∀ slots' : Nat → Option K, p.Fits cells slots' outcomes) :
    Sound kernels cells (update slots cell (some k)) outcomes (update phases t p) where
  mapped := h.mapped
  built := by
    intro c k' hk'
    rw [Function.update_apply] at hk'
    split at hk'
    · next hc =>
      cases hk'
      exact ⟨key, hc ▸ hcell, hbuilt⟩
    · exact h.built c k' hk'
  fits := by
    refine (Function.forall_update_iff phases fun _ p => p.Fits cells _ outcomes).2 ⟨hp _, fun t' hne => ?_⟩
    exact (h.fits t').fill k fun hholds => hne (Option.some.inj ((hlocked t').2 hholds)).symm

end Sound

theorem Sound.step (hlocked : Locked s.holders s.recorder s.phases)
    (h : Sound s.kernels s.cells s.slots s.outcomes s.phases) (hstep : Step capacity s s') :
    Sound s'.kernels s'.cells s'.slots s'.outcomes s'.phases := by
  have hfits := h.fits
  cases hstep with
  | call key ht => exact h.goes trivial
  | @find t key cell ht hcell => exact h.goes (h.mapped key cell hcell)
  | @insert t key ht hnone => exact (h.insert key).goes List.getElem?_concat_length
  | @lock t key cell ht =>
    have hcell := hfits t
    rw [ht] at hcell
    exact h.goes hcell
  | hit ht => exact h.goes trivial
  | @miss t key cell ht hslot =>
    have hcell := hfits t
    rw [ht] at hcell
    exact h.goes ⟨hcell, hslot⟩
  | @succeed t key cell k ht =>
    have hcell := hfits t
    rw [ht] at hcell
    have hguards := hlocked.cell cell
    rw [(hguards t).2 (by rw [ht]; rfl)] at hguards
    exact (h.ended (key, some k)).fill hguards hcell.1 (List.mem_append_right _ (List.mem_singleton_self _))
      fun _ => trivial
  | @fail t key cell ht =>
    exact (h.ended (key, none)).goes (List.mem_append_right s.outcomes (List.mem_singleton_self _))
  | @giveUp t key cell ht =>
    have hfailed := hfits t
    rw [ht] at hfailed
    exact h.goes hfailed
  | @forget t key ht => exact (h.remove key).goes trivial
  | @drop t oldest ht => exact (h.remove oldest).goes trivial
  | leave | keep | enqueue | dequeue | finish => exact h.goes trivial

end Cells

theorem Reachable.locked (h : Reachable capacity s) : Locked s.holders s.recorder s.phases := by
  induction h with
  | start => exact ⟨fun cell t => iff_of_false nofun nofun, fun t => iff_of_false nofun nofun⟩
  | step _ hstep ih => exact ih.step hstep

theorem Reachable.sound (h : Reachable capacity s) : Sound s.kernels s.cells s.slots s.outcomes s.phases := by
  induction h with
  | start => exact ⟨nofun, nofun, fun t => trivial⟩
  | step h hstep ih => exact ih.step h.locked hstep

section Alone

open KernelCache

theorem lookup_cons_ite {α : Type} (key key' : String) (a : α) (l : List (String × α)) :
    ((key', a) :: l).lookup key = if key = key' then some a else l.lookup key := by
  by_cases hkey : key = key'
  · simp [hkey]
  · rw [List.lookup_cons, beq_false_of_ne hkey, if_neg hkey]

theorem lookup_remove (c : KernelCache K) (key key' : String) :
    (c.remove key).kernels.lookup key' = if key' = key then none else c.kernels.lookup key' := by
  rw [KernelCache.remove]
  induction c.kernels with
  | nil => simp
  | cons slot slots ih =>
    obtain ⟨a, x⟩ := slot
    rw [List.filter_cons, lookup_cons_ite]
    by_cases ha : a = key
    · rw [if_neg (by simp [ha]), ih, ha]
      split <;> rfl
    · rw [if_pos (by simp [ha]), lookup_cons_ite, ih]
      split
      · next hkey => rw [if_neg (hkey ▸ ha)]
      · rfl

theorem lookup_fill (c : KernelCache K) (key key' : String) (k : K) : (c.fill key k).kernels.lookup key' =
    if key' = key then (c.kernels.lookup key).map fun _ => some k else c.kernels.lookup key' := by
  rw [KernelCache.fill]
  induction c.kernels with
  | nil => simp
  | cons slot slots ih =>
    obtain ⟨a, x⟩ := slot
    rw [List.map_cons, lookup_cons_ite key a, lookup_cons_ite key' a]
    by_cases ha : a = key
    · rw [if_pos (by simpa using ha), lookup_cons_ite, ih, if_pos ha.symm, ha]
      split <;> rfl
    · rw [if_neg (by simpa using ha), lookup_cons_ite, ih, if_neg (Ne.symm ha)]
      split
      · next hkey => rw [if_neg (hkey ▸ ha)]
      · rfl

variable {c : KernelCache K}

def Maps (c : KernelCache K) (s : State T K) : Prop := ∀ key, c.kernels.lookup key = (s.kernels key).map s.slots

def Lone (phases : T → Phase) (t : T) (p : Phase) : Prop := phases = update (fun _ => .idle) t p

theorem Lone.at (h : Lone phases t p) : phases t = p := by
  rw [h]
  exact Function.update_self _ _ _

theorem Lone.goes (h : Lone phases t p) (q : Phase) : Lone (update phases t q) t q := by
  rw [h]
  exact Function.update_idem _ _ _

theorem Lone.leaves (h : Lone phases t p) : update phases t .idle = fun _ => .idle := by
  rw [h.goes]
  exact Function.update_eq_self t (fun _ => Phase.idle)

theorem Lone.inside {inside : Phase → Prop} {holder : Option T} (h : Lone phases t p)
    (hguards : Guards holder inside phases) (hp : ¬ inside p) (hidle : ¬ inside .idle) : holder = none := by
  by_contra hsome
  obtain ⟨t', ht'⟩ := Option.ne_none_iff_exists'.1 hsome
  have hinside := (hguards t').1 ht'
  rw [h, Function.update_apply] at hinside
  split at hinside
  · exact hp hinside
  · exact hidle hinside

theorem exists_evict {order : List String} (hs : Reachable c.room s) (ht : Lone s.phases t .evicting) (hmaps : Maps c s)
    (horder : s.order = order) : ∃ s' : State T K,
      Reachable c.room s' ∧ s'.phases = (fun _ => .idle) ∧ Maps (c.evict order) s' ∧
      (c.evict order).order = s'.order := by
  induction order generalizing c s with
  | nil => exact ⟨_, hs.step (.finish ht.at (by simp [horder])), ht.leaves, hmaps, horder.symm⟩
  | cons oldest rest ih =>
    rw [KernelCache.evict]
    split
    · next hfull =>
      have hpopped := hs.step (.dequeue ht.at horder (by simpa [horder] using hfull))
      have hdropping := ht.goes (.dropping oldest)
      refine ih (c := c.remove oldest) (hpopped.step (.drop hdropping.at)) (hdropping.goes _) (fun key => ?_) rfl
      rw [lookup_remove, hmaps key]
      dsimp only [State.goes]
      rw [Function.update_apply]
      split <;> rfl
    · next hroom => exact ⟨_, hs.step (.finish ht.at (by simpa [horder] using hroom)), ht.leaves, hmaps, horder.symm⟩

theorem exists_cell (hs : Reachable capacity s) (ht : Lone s.phases t (.entering key)) (hmaps : Maps c s) :
    ∃ (s' : State T K) (cell : Nat), Reachable capacity s' ∧ Lone s'.phases t (.waiting key cell) ∧
      Maps (c.cell key).1 s' ∧ s'.order = s.order ∧ s'.kernels key = some cell ∧ s'.slots cell = (c.cell key).2 := by
  have hlookup := hmaps key
  rw [KernelCache.cell]
  cases hcell : s.kernels key with
  | some cell =>
    rw [hcell, Option.map_some] at hlookup
    rw [hlookup]
    exact ⟨_, cell, hs.step (.find ht.at hcell), ht.goes _, hmaps, rfl, hcell, rfl⟩
  | none =>
    rw [hcell, Option.map_none] at hlookup
    rw [hlookup]
    -- kernels are kept in cells that have been made, and this one has not
    have hfresh : s.slots s.cells.length = none := by
      by_contra hsome
      obtain ⟨k, hk⟩ := Option.ne_none_iff_exists'.1 hsome
      obtain ⟨key', hkey', -⟩ := hs.sound.built _ k hk
      exact absurd (List.getElem?_eq_some_iff.1 hkey').1 (Nat.lt_irrefl _)
    refine ⟨_, s.cells.length, hs.step (.insert ht.at hcell), ht.goes _, fun key' => ?_, rfl,
      Function.update_self _ _ _, hfresh⟩
    dsimp only [State.goes]
    rw [List.lookup_append, lookup_cons_ite, Function.update_apply]
    split
    · next hkey => rw [hkey, hlookup, Option.none_or, Option.map_some, hfresh]
    · next hkey => rw [List.lookup_nil, Option.or_none, hmaps key']

theorem exists_failed (hs : Reachable capacity s) (ht : Lone s.phases t (.building key cell)) (hmaps : Maps c s) :
    ∃ s' : State T K, Reachable capacity s' ∧ s'.phases = (fun _ => .idle) ∧ Maps (c.remove key) s' ∧
      s'.order = s.order := by
  have hfailed := hs.step (.fail ht.at)
  have ht₁ := ht.goes (.failed key cell)
  have hgiven := hfailed.step (.giveUp ht₁.at)
  have ht₂ := ht₁.goes (.forgetting key)
  refine ⟨_, hgiven.step (.forget ht₂.at), ht₂.leaves, fun key' => ?_, rfl⟩
  rw [lookup_remove, hmaps key']
  dsimp only [State.goes]
  rw [Function.update_apply]
  split <;> rfl

theorem exists_built (hs : Reachable capacity s) (ht : Lone s.phases t (.building key cell)) (hmaps : Maps c s)
    (hcell : s.kernels key = some cell) (k : K) :
    ∃ s' : State T K, Reachable capacity s' ∧ Lone s'.phases t .evicting ∧ Maps (c.fill key k) s' ∧
      s'.order = s.order ++ [key] := by
  have hbuilt := hs.step (.succeed k ht.at)
  have ht₁ := ht.goes (.filled key cell)
  have hkept := hbuilt.step (.keep ht₁.at)
  have ht₂ := ht₁.goes (.remembering key)
  have hfree := ht₂.inside hkept.locked.queue Bool.false_ne_true Bool.false_ne_true
  refine ⟨_, hkept.step (.enqueue ht₂.at hfree), ht₂.goes _, fun key' => ?_, rfl⟩
  rw [lookup_fill, hmaps key, hmaps key']
  dsimp only [State.goes]
  split
  · next hkey => rw [hkey, hcell, Option.map_some, Option.map_some, Option.map_some, Function.update_self]
  · next hkey =>
    cases hcell' : s.kernels key' with
    | none => rfl
    | some cell' =>
      have hne : cell' ≠ cell := by
        rintro rfl
        exact hkey (Option.some.inj ((hs.sound.mapped key' _ hcell').symm.trans (hs.sound.mapped key _ hcell)))
      rw [Option.map_some, Option.map_some, Function.update_of_ne hne]

theorem exists_kernel (b : Backend K) (hs : Reachable c.room s) (hidle : s.phases = fun _ => .idle) (hmaps : Maps c s)
    (horder : c.order = s.order) (n : Nest) (t : T) : ∃ s' : State T K,
      Reachable c.room s' ∧ s'.phases = (fun _ => .idle) ∧ Maps (c.kernel b n).1 s' ∧
      (c.kernel b n).1.order = s'.order := by
  -- nothing else is under way, so the call can take all its steps
  have hcalled : Reachable c.room (s.goes t (.entering n.applied.text)) := hs.step (.call _ (by rw [hidle]))
  have ht : Lone (s.goes t (.entering n.applied.text)).phases t (.entering n.applied.text) := by
    rw [Lone, State.goes, hidle]
  obtain ⟨s₁, cell, h₁, ht₁, hmaps₁, horder₁, hcell, hslot⟩ := exists_cell hcalled ht hmaps
  have h₂ := h₁.step (.lock ht₁.at (ht₁.inside (h₁.locked.cell cell) nofun nofun))
  have ht₂ := ht₁.goes (.looking n.applied.text cell)
  have hrest : (c.cell n.applied.text).1.order = c.order ∧ (c.cell n.applied.text).1.room = c.room := by
    rw [KernelCache.cell]
    split <;> exact ⟨rfl, rfl⟩
  rw [KernelCache.kernel]
  dsimp only
  generalize c.cell n.applied.text = r at hmaps₁ hslot hrest
  obtain ⟨c₁, slot⟩ := r
  have horder₂ : c₁.order = s₁.order := hrest.1.trans (horder.trans horder₁.symm)
  cases slot with
  | some k =>
    have h₃ := h₂.step (.hit ht₂.at hslot)
    have ht₃ := ht₂.goes (.answered cell)
    exact ⟨_, h₃.step (.leave ht₃.at), ht₃.leaves, hmaps₁, horder₂⟩
  | none =>
    have h₃ := h₂.step (.miss ht₂.at hslot)
    have ht₃ := ht₂.goes (.building n.applied.text cell)
    dsimp only
    cases b.build n with
    | error e =>
      obtain ⟨s₂, h₄, hidle', hmaps₂, horder₃⟩ := exists_failed h₃ ht₃ (c := { c₁ with builds := c₁.builds + 1 }) hmaps₁
      exact ⟨s₂, h₄, hidle', hmaps₂, horder₂.trans horder₃.symm⟩
    | ok k =>
      obtain ⟨s₂, h₄, ht₄, hmaps₂, horder₃⟩ :=
        exists_built h₃ ht₃ (c := { c₁ with builds := c₁.builds + 1 }) hmaps₁ hcell k
      have hroom : c₁.room = c.room := hrest.2
      rw [← hroom] at h₄ ⊢
      refine exists_evict (c := { c₁ with builds := c₁.builds + 1 }.fill n.applied.text k) h₄ ht₄ hmaps₂ ?_
      rw [horder₃]
      exact congrArg (· ++ [n.applied.text]) horder₂.symm

theorem exists_afterCalls (b : Backend K) (cfg : TimingPlan) (capacity : Nat) (calls : List Nest) (t : T) :
    ∃ s : State T K, Reachable (max capacity 1) s ∧ s.phases = (fun _ => .idle) ∧
      Maps (afterCalls b cfg { capacity } calls) s ∧ (afterCalls b cfg { capacity } calls).order = s.order := by
  induction calls using List.reverseRecOn with
  | nil => exact ⟨{}, .start, rfl, fun key => rfl, rfl⟩
  | append_singleton calls n ih =>
    obtain ⟨s, hs, hidle, hmaps, horder⟩ := ih
    obtain ⟨⟨builds, hafter⟩, -⟩ := @afterCalls_eq K b capacity cfg calls
    rw [afterCalls_concat]
    have hroom : (afterCalls b cfg { capacity } calls).room = max capacity 1 := by rw [hafter, room_holding]
    rw [← hroom] at hs ⊢
    exact exists_kernel b hs hidle hmaps horder n t

end Alone

end SharedCache

end LoopNest
