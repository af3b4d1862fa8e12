import LoopNest.Affine.Lemmas
import LoopNest.Proofs.Affine.Scope
import LoopNest.Proofs.Kernel.Weight
import Mathlib.Logic.Function.Basic
import Mathlib.Order.Bounds.Basic

namespace LoopNest.Affine

variable {range : String → Option (Int × Int)} {lo hi lo' hi' : Int} {ts : List Term} {f : Affine}

def Within (range : String → Option (Int × Int)) (env : String → Int) : Prop :=
  ∀ a l u, range a = some (l, u) → l ≤ env a ∧ env a ≤ u

theorem boundsTerms_failsOnly (range : String → Option (Int × Int)) (lo hi : Int) (ts : List Term) :
    FailsOnlyBy .overflow (boundsTerms range lo hi ts) := by
  induction ts generalizing lo hi with
  | nil => exact .ok _
  | cons t ts ih =>
    rw [boundsTerms]
    split
    · exact .ok _
    · dsimp only
      split
      all_goals
        exact (Word.checked_failsOnly _).bind fun _ _ => (Word.checked_failsOnly _).bind fun _ _ =>
          (Word.checked_failsOnly _).bind fun _ _ => (Word.checked_failsOnly _).bind fun _ _ => ih _ _

theorem bounds_failsOnly (f : Affine) (range : String → Option (Int × Int)) :
    FailsOnlyBy .overflow (f.bounds range) := boundsTerms_failsOnly range _ _ _

def lowEnd (t : Term) (l u : Int) : Int := if t.coeff < 0 then u else l

def highEnd (t : Term) (l u : Int) : Int := if t.coeff < 0 then l else u

theorem mul_ends {t : Term} {l u v : Int} (hl : l ≤ v) (hu : v ≤ u) :
    t.coeff * lowEnd t l u ≤ t.coeff * v ∧ t.coeff * v ≤ t.coeff * highEnd t l u := by
  unfold lowEnd highEnd
  by_cases hneg : t.coeff < 0
  · rw [if_pos hneg, if_pos hneg]
    constructor
    · exact Int.mul_le_mul_of_nonpos_left (by omega) hu
    · exact Int.mul_le_mul_of_nonpos_left (by omega) hl
  · rw [if_neg hneg, if_neg hneg]
    constructor
    · exact Int.mul_le_mul_of_nonneg_left hl (by omega)
    · exact Int.mul_le_mul_of_nonneg_left hu (by omega)

theorem ends_within (t : Term) {l u : Int} (h : l ≤ u) :
    (l ≤ lowEnd t l u ∧ lowEnd t l u ≤ u) ∧ l ≤ highEnd t l u ∧ highEnd t l u ≤ u := by
  unfold lowEnd highEnd
  split <;> omega

theorem boundsTerms_cons_of_none {t : Term} (h : range t.atom = none) :
    boundsTerms range lo hi (t :: ts) = .ok none := by
  rw [boundsTerms, h]

theorem boundsTerms_cons_of_some {t : Term} {l u : Int} (h : range t.atom = some (l, u)) :
    boundsTerms range lo hi (t :: ts) = (do
      let p ← Word.mul t.coeff (lowEnd t l u)
      let lo ← Word.add lo p
      let q ← Word.mul t.coeff (highEnd t l u)
      let hi ← Word.add hi q
      boundsTerms range lo hi ts) := by
  rw [boundsTerms, h]
  unfold lowEnd highEnd
  by_cases hneg : t.coeff < 0 <;> simp only [hneg, if_true, if_false]

theorem boundsTerms_cons_eq_ok_of_some {t : Term} {l u : Int} (hsome : range t.atom = some (l, u))
    {o : Option (Int × Int)} (h : boundsTerms range lo hi (t :: ts) = .ok o) :
    (Word.fits (t.coeff * lowEnd t l u) = true ∧ Word.fits (t.coeff * highEnd t l u) = true) ∧
      (Word.fits (lo + t.coeff * lowEnd t l u) = true ∧ Word.fits (hi + t.coeff * highEnd t l u) = true) ∧
      boundsTerms range (lo + t.coeff * lowEnd t l u) (hi + t.coeff * highEnd t l u) ts = .ok o := by
  rw [boundsTerms_cons_of_some hsome] at h
  simp only [bind_eq_ok] at h
  obtain ⟨p, hp, least, hleast, q, hq, most, hmost, h⟩ := h
  obtain ⟨rfl, hpfits⟩ := Word.mul_eq_ok.1 hp
  obtain ⟨rfl, hqfits⟩ := Word.mul_eq_ok.1 hq
  obtain ⟨rfl, hleastFits⟩ := Word.add_eq_ok.1 hleast
  obtain ⟨rfl, hmostFits⟩ := Word.add_eq_ok.1 hmost
  exact ⟨⟨hpfits, hqfits⟩, ⟨hleastFits, hmostFits⟩, h⟩

theorem boundsTerms_cons_eq_ok {t : Term} {o : Option (Int × Int)}
    (h : boundsTerms range lo hi (t :: ts) = .ok o) :
    (range t.atom = none ∧ o = none) ∨ ∃ l u, range t.atom = some (l, u) ∧
      boundsTerms range (lo + t.coeff * lowEnd t l u) (hi + t.coeff * highEnd t l u) ts = .ok o := by
  cases hrange : range t.atom with
  | none =>
    rw [boundsTerms_cons_of_none hrange] at h
    cases h
    exact Or.inl ⟨rfl, rfl⟩
  | some b => exact Or.inr ⟨b.1, b.2, rfl, (boundsTerms_cons_eq_ok_of_some hrange h).2.2⟩

theorem boundsTerms_isSome (hrange : ∀ t ∈ ts, ∃ b, range t.atom = some b) {o : Option (Int × Int)}
    (h : boundsTerms range lo hi ts = .ok o) : ∃ b, o = some b := by
  induction ts generalizing lo hi with
  | nil =>
    cases h
    exact ⟨_, rfl⟩
  | cons t ts ih =>
    obtain ⟨⟨b, hb⟩, hrest⟩ := List.forall_mem_cons.1 hrange
    rcases boundsTerms_cons_eq_ok h with ⟨hnone, -⟩ | ⟨l, u, -, h⟩
    · rw [hb] at hnone
      cases hnone
    · exact ih hrest h

theorem bounds_isSome {names : List String} (hf : f.Over names) (hrange : ∀ a ∈ names, ∃ b, range a = some b)
    {o : Option (Int × Int)} (h : f.bounds range = .ok o) : ∃ b, o = some b :=
  boundsTerms_isSome (fun t ht => hrange _ (over_iff.1 hf t ht)) h

theorem boundsTerms_enclose {env : String → Int} (henv : Within range env)
    (h : boundsTerms range lo hi ts = .ok (some (lo', hi'))) :
    lo' ≤ lo + termsValue env ts ∧ hi + termsValue env ts ≤ hi' := by
  induction ts generalizing lo hi with
  | nil =>
    cases h
    simp [termsValue]
  | cons t ts ih =>
    rcases boundsTerms_cons_eq_ok h with ⟨-, hnone⟩ | ⟨l, u, hsome, h⟩
    · cases hnone
    · have hrest := ih h
      obtain ⟨hl, hu⟩ := henv _ _ _ hsome
      have hterm := mul_ends (t := t) hl hu
      rw [termsValue]
      omega

theorem bounds_enclose {env : String → Int} (henv : Within range env) (h : f.bounds range = .ok (some (lo, hi))) :
    lo ≤ f.value env ∧ f.value env ≤ hi := boundsTerms_enclose henv h

theorem termsValue_update {a : String} (ha : a ∉ ts.map Term.atom) (env : String → Int) (v : Int) :
    termsValue (Function.update env a v) ts = termsValue env ts := by
  apply termsValue_congr
  intro t ht
  apply Function.update_of_ne
  rintro rfl
  exact ha (List.mem_map_of_mem ht)

def Box (range : String → Option (Int × Int)) (env env' : String → Int) : Prop :=
  Within range env' ∧ ∀ a, range a = none → env' a = env a

theorem Box.update {env env' : String → Int} (h : Box range env env') {a : String} {l u v : Int}
    (ha : range a = some (l, u)) (hv : l ≤ v ∧ v ≤ u) : Box range env (Function.update env' a v) := by
  constructor
  · intro b l' u' hb
    by_cases hba : b = a
    · subst hba
      rw [ha] at hb
      cases hb
      rwa [Function.update_self]
    · rw [Function.update_of_ne hba]
      exact h.1 b l' u' hb
  · intro b hb
    rw [Function.update_of_ne, h.2 b hb]
    rintro rfl
    rw [ha] at hb
    cases hb

theorem boundsTerms_attained (hts : (ts.map Term.atom).Nodup) {env : String → Int} (henv : Within range env)
    (h : boundsTerms range lo hi ts = .ok (some (lo', hi'))) :
    (∃ e, Box range env e ∧ lo + termsValue e ts = lo') ∧ ∃ e, Box range env e ∧ hi + termsValue e ts = hi' := by
  induction ts generalizing lo hi with
  | nil =>
    cases h
    have hbox : Box range env env := ⟨henv, fun _ _ => rfl⟩
    exact ⟨⟨env, hbox, by simp [termsValue]⟩, env, hbox, by simp [termsValue]⟩
  | cons t ts ih =>
    rcases boundsTerms_cons_eq_ok h with ⟨-, hnone⟩ | ⟨l, u, hsome, h⟩
    · cases hnone
    · obtain ⟨hfresh, hts⟩ := List.nodup_cons.1 hts
      obtain ⟨⟨e, he, hlow⟩, e', he', hhigh⟩ := ih hts h
      obtain ⟨hl, hu⟩ := henv _ _ _ hsome
      obtain ⟨hlowEnd, hhighEnd⟩ := ends_within t (Int.le_trans hl hu)
      constructor
      · refine ⟨_, he.update hsome hlowEnd, ?_⟩
        rw [termsValue, Function.update_self, termsValue_update hfresh]
        omega
      · refine ⟨_, he'.update hsome hhighEnd, ?_⟩
        rw [termsValue, Function.update_self, termsValue_update hfresh]
        omega

theorem bounds_of_falling (hf : f.IsCanonical) {first last : String → Int} (hfirst : Within range first)
    (hlast : Within range last) (hmost : ∀ e, Box range first e → f.value e ≤ f.value first)
    (hleast : ∀ e, Box range last e → f.value last ≤ f.value e) (h : f.bounds range = .ok (some (lo, hi))) :
    lo = f.value last ∧ hi = f.value first := by
  obtain ⟨-, e', he', hhigh⟩ := boundsTerms_attained hf.nodup_atoms hfirst h
  obtain ⟨⟨e, he, hlow⟩, -⟩ := boundsTerms_attained hf.nodup_atoms hlast h
  have habove := (boundsTerms_enclose hfirst h).2
  have hbelow := (boundsTerms_enclose hlast h).1
  have hmost' := hmost e' he'
  have hleast' := hleast e he
  rw [value, value] at hmost' hleast' ⊢
  omega

theorem boundsTerms_eq_none_iff {o : Option (Int × Int)} (h : boundsTerms range lo hi ts = .ok o) :
    o = none ↔ ∃ t ∈ ts, range t.atom = none := by
  constructor
  · rintro rfl
    by_contra hall
    obtain ⟨b, hb⟩ := boundsTerms_isSome
      (fun t ht => Option.ne_none_iff_exists'.1 fun hnone => hall ⟨t, ht, hnone⟩) h
    cases hb
  · rintro ⟨t, ht, hnone⟩
    induction ts generalizing lo hi with
    | nil => cases ht
    | cons u ts ih =>
      rcases boundsTerms_cons_eq_ok h with ⟨-, ho⟩ | ⟨l, r, hsome, h⟩
      · exact ho
      · have hne : t ≠ u := by
          rintro rfl
          rw [hnone] at hsome
          cases hsome
        exact ih h ((List.mem_cons.1 ht).resolve_left hne)

theorem fits_of_between {x y z : Int} (hx : Word.fits x = true) (hz : Word.fits z = true) (hxy : x ≤ y)
    (hyz : y ≤ z) : Word.fits y = true :=
  Word.fits_iff.2 ⟨Int.le_trans (Word.fits_iff.1 hx).1 hxy, Int.le_trans hyz (Word.fits_iff.1 hz).2⟩

theorem evalTerms_of_boundsTerms {env : String → Int} (henv : Within range env) {total : Int} (hlow : lo ≤ total)
    (hhigh : total ≤ hi) (h : boundsTerms range lo hi ts = .ok (some (lo', hi'))) :
    evalTerms (fun a => some (env a)) total ts = .ok (some (total + termsValue env ts)) := by
  induction ts generalizing lo hi total with
  | nil => simp [evalTerms, termsValue]
  | cons t ts ih =>
    rcases boundsTerms_cons_eq_ok h with ⟨-, hnone⟩ | ⟨l, u, hsome, -⟩
    · cases hnone
    · obtain ⟨⟨hlowTerm, hhighTerm⟩, ⟨hlowSum, hhighSum⟩, h⟩ := boundsTerms_cons_eq_ok_of_some hsome h
      obtain ⟨hl, hu⟩ := henv _ _ _ hsome
      obtain ⟨hfrom, hto⟩ := mul_ends (t := t) hl hu
      have hsumFrom : lo + t.coeff * lowEnd t l u ≤ total + t.coeff * env t.atom := Int.add_le_add hlow hfrom
      have hsumTo : total + t.coeff * env t.atom ≤ hi + t.coeff * highEnd t l u := Int.add_le_add hhigh hto
      have hmul : Word.mul t.coeff (env t.atom) = .ok (t.coeff * env t.atom) :=
        Word.checked_of_fits (fits_of_between hlowTerm hhighTerm hfrom hto)
      have hadd : Word.add total (t.coeff * env t.atom) = .ok (total + t.coeff * env t.atom) :=
        Word.checked_of_fits (fits_of_between hlowSum hhighSum hsumFrom hsumTo)
      simp only [evalTerms]
      rw [hmul, ok_bind, hadd, ok_bind, ih hsumFrom hsumTo h, termsValue, Int.add_assoc]

theorem eval_of_bounds {env : String → Int} (henv : Within range env) (h : f.bounds range = .ok (some (lo, hi))) :
    f.eval (fun a => some (env a)) = .ok (some (f.value env)) :=
  evalTerms_of_boundsTerms henv (Int.le_refl _) (Int.le_refl _) h

theorem exists_boundsTerms {bound : Nat}
    (hbound : ∀ a l u, range a = some (l, u) → l.natAbs ≤ bound ∧ u.natAbs ≤ bound) (lo hi : Int)
    (hlo : lo.natAbs + termsWeight ts * bound < 9223372036854775808)
    (hhi : hi.natAbs + termsWeight ts * bound < 9223372036854775808) :
    ∃ o, boundsTerms range lo hi ts = .ok o := by
  induction ts generalizing lo hi with
  | nil => exact ⟨_, rfl⟩
  | cons t ts ih =>
    cases hrange : range t.atom with
    | none => exact ⟨none, boundsTerms_cons_of_none hrange⟩
    | some b =>
      obtain ⟨l, u⟩ := b
      -- whichever end it takes, a term adds at most its coefficient times the bound
      have hend : ∀ v : Int, v = l ∨ v = u → (t.coeff * v).natAbs ≤ t.coeff.natAbs * bound := by
        intro v hv
        rw [Int.natAbs_mul]
        apply Nat.mul_le_mul_left
        rcases hv with rfl | rfl
        · exact (hbound _ _ _ hrange).1
        · exact (hbound _ _ _ hrange).2
      have hlow := hend (lowEnd t l u) (by unfold lowEnd; split <;> simp)
      have hhigh := hend (highEnd t l u) (by unfold highEnd; split <;> simp)
      rw [termsWeight, Nat.add_mul] at hlo hhi
      obtain ⟨o, ho⟩ := ih (lo + t.coeff * lowEnd t l u) (hi + t.coeff * highEnd t l u) (by omega) (by omega)
      refine ⟨o, ?_⟩
      simp only [boundsTerms_cons_of_some hrange, bind_eq_ok]
      exact ⟨_, Word.checked_of_natAbs (by omega), _, Word.checked_of_natAbs (by omega), _,
        Word.checked_of_natAbs (by omega), _, Word.checked_of_natAbs (by omega), ho⟩

theorem exists_bounds {bound : Nat} (hpos : 0 < bound)
    (hbound : ∀ a l u, range a = some (l, u) → l.natAbs ≤ bound ∧ u.natAbs ≤ bound)
    (h : f.weight * bound < 9223372036854775808) : ∃ o, f.bounds range = .ok o := by
  have hconstant : f.constant.natAbs ≤ f.constant.natAbs * bound := Nat.le_mul_of_pos_right _ hpos
  rw [weight, Nat.add_mul] at h
  exact exists_boundsTerms hbound _ _ (by omega) (by omega)

def valuesWithin (f : Affine) (range : String → Option (Int × Int)) : Set Int :=
  { v | ∃ env, Within range env ∧ f.eval (fun a => some (env a)) = .ok (some v) }

theorem exists_within (hrange : ∀ a l u, range a = some (l, u) → l ≤ u) : ∃ env, Within range env := by
  refine ⟨fun a => ((range a).map Prod.fst).getD 0, ?_⟩
  intro a l u h
  simp [h, hrange a l u h]

/-- The bounds of a canonical form over a box are missing exactly if some atom has no range. Otherwise the form can be
evaluated everywhere in the box, and they are the least and the greatest value there. Only an overflow leaves it
without an answer, and none occurs while the numbers are small. -/
theorem bounds_exact (hf : f.IsCanonical) (hrange : ∀ a l u, range a = some (l, u) → l ≤ u) :
    (∀ o, f.bounds range = .ok o → (o = none ↔ ∃ a ∈ f.atoms, range a = none) ∧
      ∀ lo hi, o = some (lo, hi) →
        (∀ env, Within range env → f.eval (fun a => some (env a)) = .ok (some (f.value env))) ∧
        IsLeast (f.valuesWithin range) lo ∧ IsGreatest (f.valuesWithin range) hi) ∧
    FailsOnlyBy .overflow (f.bounds range) ∧
    ∀ bound, 0 < bound → (∀ a l u, range a = some (l, u) → l.natAbs ≤ bound ∧ u.natAbs ≤ bound) →
      f.weight * bound < 9223372036854775808 → ∃ o, f.bounds range = .ok o := by
  refine ⟨fun o ho => ⟨?_, ?_⟩, bounds_failsOnly f range, fun bound hpos hbound h => exists_bounds hpos hbound h⟩
  · rw [boundsTerms_eq_none_iff ho]
    simp [atoms]
  · rintro lo hi rfl
    have heval : ∀ env, Within range env → f.eval (fun a => some (env a)) = .ok (some (f.value env)) :=
      fun env henv => eval_of_bounds henv ho
    have hbetween : ∀ v ∈ f.valuesWithin range, lo ≤ v ∧ v ≤ hi := by
      rintro v ⟨env, henv, hv⟩
      rw [eval_eq_some env hv]
      exact bounds_enclose henv ho
    obtain ⟨env, henv⟩ := exists_within hrange
    obtain ⟨⟨e, he, hlow⟩, e', he', hhigh⟩ := boundsTerms_attained hf.nodup_atoms henv ho
    refine ⟨heval, ⟨⟨e, he.1, ?_⟩, fun v hv => (hbetween v hv).1⟩, ⟨e', he'.1, ?_⟩, fun v hv => (hbetween v hv).2⟩
    · rw [heval e he.1, value, hlow]
    · rw [heval e' he'.1, value, hhigh]

namespace Slanted

def form : Affine := ⟨[⟨-2, "i"⟩, ⟨3, "j"⟩], 10⟩

def rectangle (a : String) : Option (Int × Int) :=
  if a = "i" then some (0, 3) else if a = "j" then some (-1, 1) else none

end Slanted

theorem bounds_exact_slanted : Slanted.form.IsCanonical ∧
    (∀ a l u, Slanted.rectangle a = some (l, u) → l ≤ u) ∧
    Slanted.form.bounds Slanted.rectangle = .ok (some (1, 13)) ∧
    IsLeast (Slanted.form.valuesWithin Slanted.rectangle) 1 ∧
    IsGreatest (Slanted.form.valuesWithin Slanted.rectangle) 13 := by
  have hcanonical : Slanted.form.IsCanonical := by
    simp only [IsCanonical, Slanted.form]
    decide
  have hrange : ∀ a l u, Slanted.rectangle a = some (l, u) → l ≤ u := by
    intro a l u h
    rw [Slanted.rectangle] at h
    split at h
    · cases h
      decide
    · split at h
      · cases h
        decide
      · cases h
  have hbounds : Slanted.form.bounds Slanted.rectangle = .ok (some (1, 13)) := by decide +kernel
  obtain ⟨hexact, -⟩ := bounds_exact hcanonical hrange
  obtain ⟨-, hleast, hgreatest⟩ := (hexact _ hbounds).2 1 13 rfl
  exact ⟨hcanonical, hrange, hbounds, hleast, hgreatest⟩

end LoopNest.Affine
