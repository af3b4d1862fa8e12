import LoopNest.Description.Catalogue
import LoopNest.Proofs.Affine.Grammar
import LoopNest.Proofs.Description.Sharing

/-!
Where building a program can overflow. The numbers of a text are multiplied and added, and the parameters in it
are multiplied and added again when they are replaced; as long as all of this stays within words, every
description becomes a program or is refused.
-/

namespace LoopNest

def Failure.ExpectedUnless {ε : Type} (P : Prop) : Failure ε → Prop
  | .fault f => f = .overflow ∧ ¬ P
  | .refused _ => True

abbrev SafeIf {ε α : Type} (P : Prop) (x : Outcome ε α) : Prop := FailsOnly (Failure.ExpectedUnless P) x

namespace SafeIf

variable {ε ε' α : Type} {P Q : Prop}

theorem refuse (e : ε) : SafeIf P (Outcome.refuse e : Outcome ε α) := FailsOnly.error trivial

theorem mono {x : Outcome ε α} (h : P → Q) (hx : SafeIf Q x) : SafeIf P x := by
  intro failure hfailure
  have hexpected := hx failure hfailure
  cases failure with
  | fault f => exact ⟨hexpected.1, fun hP => hexpected.2 (h hP)⟩
  | refused e => trivial

theorem lift {x : Checked α} (hx : FailsOnlyBy .overflow x) (h : P → ∃ a, x = .ok a) :
    SafeIf P (liftM x : Outcome ε α) := by
  refine FailsOnly.lift fun f hf => ⟨hx f hf, fun hP => ?_⟩
  obtain ⟨a, ha⟩ := h hP
  rw [hf] at ha
  cases ha

theorem mapRefusal {x : Outcome ε α} (hx : SafeIf P x) (f : ε → ε') : SafeIf P (x.mapRefusal f) := by
  cases x with
  | ok a => exact .ok a
  | error failure =>
    cases failure with
    | fault g => exact FailsOnly.error (hx _ rfl)
    | refused e => exact refuse _

theorem cases {x : Outcome ε α} (hx : SafeIf P x) :
    (∃ a, x = .ok a) ∨ (∃ e, x = Outcome.refuse e) ∨ x = .error (.fault .overflow) ∧ ¬ P := by
  cases x with
  | ok a => exact .inl ⟨a, rfl⟩
  | error failure =>
    have hexpected := hx failure rfl
    cases failure with
    | fault f =>
      obtain ⟨rfl, hP⟩ := hexpected
      exact .inr (.inr ⟨rfl, hP⟩)
    | refused e => exact .inr (.inl ⟨e, rfl⟩)

theorem of_ends {Good : Affine → Prop} {e : Affine.ParseError} {Bad : Prop} {x : Outcome Affine.ParseError Affine}
    (h : Affine.Ends Good e Bad P x) : SafeIf P x := by
  obtain ⟨f, rfl, -⟩ | ⟨rfl, -⟩ | ⟨rfl, hP⟩ := h
  · exact .ok f
  · exact refuse e
  · exact FailsOnly.error ⟨rfl, hP⟩

theorem traverses {one : α → Outcome ε ε'} {each : List α → Outcome ε (List ε')} (h : Traverses one each)
    {xs : List α} (hxs : ∀ x ∈ xs, SafeIf P (one x)) : SafeIf P (each xs) := by
  induction xs with
  | nil =>
    rw [h.nil]
    exact .ok []
  | cons x xs ih =>
    obtain ⟨hx, hxs⟩ := List.forall_mem_cons.1 hxs
    rw [h.cons]
    exact hx.bind fun _ _ => (ih hxs).bind fun _ _ => .ok _

end SafeIf

namespace Description

open LoopNest.Affine (NumbersFit)

section Parameters

variable {params : List (String × Int)}

def parameterPart (params : List (String × Int)) (t : Term) : Int :=
  match param? params t.atom with
  | some v => v * t.coeff
  | none => 0

def parameterSum (params : List (String × Int)) (ts : List Term) : Int := (ts.map (parameterPart params)).sum

theorem parameterSum_snoc (ts : List Term) (t : Term) :
    parameterSum params (ts ++ [t]) = parameterSum params ts + parameterPart params t := by
  simp [parameterSum]

structure BindsWithin (params : List (String × Int)) (f : Affine) : Prop where
  multiples : ∀ t ∈ f.terms, Word.fits (parameterPart params t) = true
  sums : ∀ ts ∈ f.terms.inits, Word.fits (f.constant + parameterSum params ts) = true

instance (params : List (String × Int)) (f : Affine) : Decidable (BindsWithin params f) :=
  decidable_of_iff ((∀ t ∈ f.terms, Word.fits (parameterPart params t) = true) ∧
    ∀ ts ∈ f.terms.inits, Word.fits (f.constant + parameterSum params ts) = true)
    ⟨fun h => ⟨h.1, h.2⟩, fun h => ⟨h.multiples, h.sums⟩⟩

structure Replaced (params : List (String × Int)) (f : Affine) (done : List Term) (acc : Affine) : Prop where
  canonical : acc.IsCanonical
  constant : acc.constant = f.constant + parameterSum params done
  names : acc.Over (done.map Term.atom)

theorem resolve_eq_ok {s : Scope} {name : String} {g : Affine} (h : s.resolve name = .ok g) :
    (∃ v, param? s.params name = some v ∧ g = .ofInt v) ∨ param? s.params name = none ∧ g = .var name := by
  rw [Scope.resolve] at h
  split at h
  · next v hv =>
    cases h
    exact .inl ⟨v, hv, rfl⟩
  · next hnone =>
    split at h
    · cases h
      exact .inr ⟨hnone, rfl⟩
    · cases h

theorem scale_resolved {s : Scope} {t : Term} {g h : Affine} (hg : s.resolve t.atom = .ok g)
    (hh : g.scale t.coeff = .ok h) : h.constant = parameterPart s.params t ∧ h.Over [t.atom] := by
  have hvalue := Affine.value_scale (fun _ => 0) hh
  rw [Affine.value_zero] at hvalue
  rw [hvalue, parameterPart]
  obtain ⟨v, hv, rfl⟩ | ⟨hnone, rfl⟩ := resolve_eq_ok hg
  · rw [hv, Affine.value_ofInt]
    exact ⟨Int.mul_comm _ _, Affine.over_scale (Affine.over_ofInt v _) hh⟩
  · rw [hnone, Affine.value_var]
    exact ⟨Int.mul_zero _, Affine.over_scale (Affine.over_var List.mem_cons_self) hh⟩

theorem exists_scale_resolved {s : Scope} {t : Term} {g : Affine} (hg : s.resolve t.atom = .ok g)
    (hcoeff : Word.fits t.coeff = true) (hpart : Word.fits (parameterPart s.params t) = true) :
    ∃ h, g.scale t.coeff = .ok h := by
  obtain ⟨v, hv, rfl⟩ | ⟨-, rfl⟩ := resolve_eq_ok hg
  · rw [parameterPart, hv] at hpart
    exact ⟨_, Affine.scale_ofInt hpart⟩
  · exact Affine.exists_scale_var t.atom hcoeff

theorem Replaced.step {s : Scope} {f acc g scaled next : Affine} {done : List Term} {t : Term}
    (hacc : Replaced s.params f done acc) (hg : s.resolve t.atom = .ok g) (hscaled : g.scale t.coeff = .ok scaled)
    (hnext : acc.add scaled = .ok next) : Replaced s.params f (done ++ [t]) next := by
  obtain ⟨hconstant, hover⟩ := scale_resolved hg hscaled
  have hvalue := Affine.value_add (fun _ => 0) hnext
  rw [Affine.value_zero, Affine.value_zero, Affine.value_zero] at hvalue
  have hnames : (done ++ [t]).map Term.atom = done.map Term.atom ++ [t.atom] := List.map_append
  refine ⟨Affine.isCanonical_add hnext, ?_, Affine.over_add ?_ ?_ hnext⟩
  · rw [hvalue, hacc.constant, hconstant, parameterSum_snoc, Int.add_assoc]
  · exact hacc.names.mono fun a ha => hnames ▸ List.mem_append_left _ ha
  · exact hover.mono fun a ha => hnames ▸ List.mem_append_right _ ha

theorem Replaced.exists_add {s : Scope} {f acc g scaled : Affine} {done : List Term} {t : Term}
    (hacc : Replaced s.params f done acc) (hg : s.resolve t.atom = .ok g) (hscaled : g.scale t.coeff = .ok scaled)
    (hnew : t.atom ∉ done.map Term.atom)
    (hsum : Word.fits (f.constant + parameterSum s.params (done ++ [t])) = true) :
    ∃ next, acc.add scaled = .ok next := by
  obtain ⟨hconstant, hover⟩ := scale_resolved hg hscaled
  refine Affine.exists_add hacc.canonical (Affine.isCanonical_scale hscaled) ?_ fun u hu v hv same => ?_
  · rwa [hacc.constant, hconstant, Int.add_assoc, ← parameterSum_snoc]
  · have hatom := List.mem_singleton.1 (Affine.over_iff.1 hover u hu)
    exact absurd (Affine.over_iff.1 hacc.names v hv) (same.trans hatom ▸ hnew)

theorem safe_bindTerms {s : Scope} {f acc : Affine} {done ts : List Term} (hf : f.Normal)
    (hterms : f.terms = done ++ ts) (hacc : Replaced s.params f done acc) :
    SafeIf (BindsWithin s.params f) (Affine.bindTerms s.resolve acc ts) := by
  induction ts generalizing acc done with
  | nil => exact .ok acc
  | cons t ts ih =>
    have hmem : t ∈ f.terms := hterms ▸ List.mem_append_right _ List.mem_cons_self
    have hsnoc : f.terms = (done ++ [t]) ++ ts := by rw [hterms, List.append_cons]
    have hnew : t.atom ∉ done.map Term.atom := by
      have hnodup : (f.terms.map Term.atom).Nodup := hf.nodup_atoms
      rw [hterms] at hnodup
      exact not_mem_of_nodup_map hnodup
    -- a name is looked up without arithmetic: it is a parameter, an iterator, or refused
    have hresolve : SafeIf (BindsWithin s.params f) (s.resolve t.atom) := by
      unfold Scope.resolve
      split
      · exact .ok _
      · split
        · exact .ok _
        · exact SafeIf.refuse _
    rw [Affine.bindTerms]
    refine hresolve.bind fun g hg => ?_
    refine (SafeIf.lift (Affine.scale_failsOnly _ _) fun hwithin => ?_).bind fun scaled hscaled => ?_
    · exact exists_scale_resolved hg (hf.fits.coeffs t hmem) (hwithin.multiples t hmem)
    have hscaled := lift_eq_ok.1 hscaled
    refine (SafeIf.lift (Affine.add_failsOnly _ _) fun hwithin => ?_).bind fun next hnext => ?_
    · refine hacc.exists_add hg hscaled hnew (hwithin.sums _ ((List.mem_inits _ _).2 ?_))
      exact hsnoc ▸ List.prefix_append _ _
    exact ih hsnoc (hacc.step hg hscaled (lift_eq_ok.1 hnext))

theorem safe_tryBind (s : Scope) {f : Affine} (hf : f.Normal) :
    SafeIf (BindsWithin s.params f) (f.tryBind s.resolve) :=
  safe_bindTerms hf (List.nil_append _).symm
    ⟨Affine.isCanonical_ofInt _, (Int.add_zero f.constant).symm, Affine.over_ofInt _ _⟩

end Parameters

section Texts

structure TextWithin (params : List (String × Int)) (text : String) : Prop where
  numbers : NumbersFit text
  parameters : ∀ f ∈ (Affine.parse text).toOption, BindsWithin params f

instance (params : List (String × Int)) (text : String) : Decidable (TextWithin params text) :=
  decidable_of_iff (NumbersFit text ∧ ∀ f ∈ (Affine.parse text).toOption, BindsWithin params f)
    ⟨fun h => ⟨h.1, h.2⟩, fun h => ⟨h.numbers, h.parameters⟩⟩

theorem safe_affine (s : Scope) (text : String) : SafeIf (TextWithin s.params text) (s.affine text) := by
  have hparse : SafeIf (TextWithin s.params text) (Affine.parse text) :=
    (SafeIf.of_ends (Affine.parse_ends text)).mono TextWithin.numbers
  refine (hparse.mapRefusal _).bind fun f hf => ?_
  have hf := Outcome.mapRefusal_eq_ok.1 hf
  refine (safe_tryBind s (Affine.normal_of_parse hf)).mono fun h => h.parameters f ?_
  rw [hf]
  rfl

theorem safe_affines (s : Scope) (texts : List String) :
    SafeIf (∀ text ∈ texts, TextWithin s.params text) (s.affines texts) :=
  SafeIf.traverses (traverses_affines s) fun text htext => (safe_affine s text).mono fun h => h text htext

theorem safe_extent (s : Scope) (buffer : String) (dim : Nat) (text : String) :
    SafeIf (TextWithin s.params text) (extent s buffer dim text) := by
  refine (safe_affine s text).bind fun f _ => ?_
  split
  · split
    · exact .ok _
    · exact SafeIf.refuse _
  · exact SafeIf.refuse _

theorem safe_extents (s : Scope) (buffer : String) (dim : Nat) (texts : List String) :
    SafeIf (∀ text ∈ texts, TextWithin s.params text) (extents s buffer dim texts) := by
  induction texts generalizing dim with
  | nil => exact .ok []
  | cons text texts ih =>
    refine ((safe_extent s buffer dim text).mono fun h => h text List.mem_cons_self).bind fun _ _ => ?_
    exact ((ih _).mono fun h t ht => h t (List.mem_cons_of_mem _ ht)).bind fun _ _ => .ok _

theorem safe_access (s : Scope) (buffers : List LoopNest.Buffer) (a : Access) :
    SafeIf (∀ text ∈ a.indices, TextWithin s.params text) (resolveAccess s buffers a) := by
  have hranked (i rank : Nat) : SafeIf (∀ text ∈ a.indices, TextWithin s.params text)
      (if rank ≠ a.indices.length then Outcome.refuse (.rankMismatch a.buffer rank a.indices.length)
        else do
          let indices ← s.affines a.indices
          return ({ buffer := i, indices } : LoopNest.Access)) := by
    split
    · exact SafeIf.refuse _
    · exact (safe_affines s a.indices).bind fun _ _ => .ok _
  rw [resolveAccess]
  split
  · exact SafeIf.refuse _
  · exact hranked _ _

mutual

def Expr.texts : Expr → List String
  | .const _ => []
  | .iter _ => []
  | .load a => a.indices
  | .binary _ l r => l.texts ++ r.texts
  | .neg e => e.texts
  | .call _ args => Expr.textsAll args

def Expr.textsAll : List Expr → List String
  | [] => []
  | e :: es => e.texts ++ Expr.textsAll es

end

theorem safe_expr (s : Scope) (buffers : List LoopNest.Buffer) (e : Expr) :
    SafeIf (∀ text ∈ e.texts, TextWithin s.params text) (resolveExpr s buffers e) := by
  fun_induction resolveExpr s buffers e with
  | case1 v => exact .ok _
  | case2 name hmem => exact .ok _
  | case3 => exact SafeIf.refuse _
  | case4 a => exact (safe_access s buffers a).bind fun _ _ => .ok _
  | case5 => exact SafeIf.refuse _
  | case6 op l r o _ ihl ihr =>
    refine (ihl.mono fun h text ht => h text (List.mem_append_left _ ht)).bind fun _ _ => ?_
    exact (ihr.mono fun h text ht => h text (List.mem_append_right _ ht)).bind fun _ _ => .ok _
  | case7 e ih => exact ih.bind fun _ _ => .ok _
  | case8 => exact SafeIf.refuse _
  | case9 name f _ e ih =>
    exact (ih.mono fun h text ht => h text (List.mem_append_left _ ht)).bind fun _ _ => .ok _
  | case10 => exact SafeIf.refuse _

def Iterator.texts (i : Iterator) : List String := [i.lower, i.upper]

theorem safe_domain (s : Scope) (done : List Dimension) (is : List Iterator) :
    SafeIf (∀ i ∈ is, ∀ text ∈ i.texts, TextWithin s.params text) (resolveDomain s done is) := by
  induction is generalizing done with
  | nil => exact .ok done
  | cons i is ih =>
    rw [resolveDomain]
    split
    · exact SafeIf.refuse _
    · have hbound (text : String) (htext : text ∈ i.texts) (names : List String) :=
        (safe_affine { s with iterators := names } text).mono
          fun h : ∀ j ∈ i :: is, ∀ t ∈ j.texts, TextWithin s.params t => h i List.mem_cons_self text htext
      refine (hbound _ List.mem_cons_self _).bind fun _ _ => ?_
      refine (hbound _ (List.mem_cons_of_mem _ List.mem_cons_self) _).bind fun _ _ => ?_
      exact (ih _).mono fun h j hj => h j (List.mem_cons_of_mem _ hj)

end Texts

section Sharing

theorem exists_sameBounds {ρ : String → String} {names : List String} (hρ : (names.map ρ).Nodup)
    {mine theirs : List Dimension} (hnormal : ∀ d ∈ mine, d.lower.Normal ∧ d.upper.Normal)
    (hover : ∀ d ∈ mine, d.Over names) : ∃ b, sameBounds ρ mine theirs = .ok b := by
  have hrenamed {f : Affine} (hf : f.Normal) (hin : f.Over names) :
      ∃ g, f.bindVars (fun a => .var (ρ a)) = .ok g := by
    have hinjective := List.inj_on_of_nodup_map hρ
    obtain ⟨g, hg, -⟩ := Affine.exists_renamed hf
      (List.Nodup.map_on (fun a ha b hb hab => hinjective (hin a ha) (hin b hb) hab) hf.nodup_atoms)
    exact ⟨g, hg⟩
  induction mine generalizing theirs with
  | nil => exact ⟨true, rfl⟩
  | cons m ms ih =>
    cases theirs with
    | nil => exact ⟨true, rfl⟩
    | cons t ts =>
      obtain ⟨⟨hlowerNormal, hupperNormal⟩, hnormal⟩ := List.forall_mem_cons.1 hnormal
      obtain ⟨hin, hover⟩ := List.forall_mem_cons.1 hover
      obtain ⟨lower, hlower⟩ := hrenamed hlowerNormal hin.1
      obtain ⟨upper, hupper⟩ := hrenamed hupperNormal hin.2
      rw [sameBounds, hlower, ok_bind, hupper]
      split
      · exact ⟨false, rfl⟩
      · rw [ok_bind]
        split
        · exact ⟨false, rfl⟩
        · exact ih hnormal hover

theorem exists_sameBounds_renameBy {mine theirs : List Dimension} (hlength : mine.length = theirs.length)
    (hmine : (mine.map Dimension.name).Nodup) (htheirs : (theirs.map Dimension.name).Nodup)
    (hnormal : ∀ d ∈ mine, d.lower.Normal ∧ d.upper.Normal) (hnested : Dimension.Nested [] mine) :
    ∃ b, sameBounds (renameBy mine theirs) mine theirs = .ok b :=
  exists_sameBounds ((map_renameBy hmine hlength).symm ▸ htheirs) hnormal (Dimension.over_of_nested hnested)

theorem sameBounds_failsOnly (ρ : String → String) (mine theirs : List Dimension) :
    FailsOnlyBy .overflow (sameBounds ρ mine theirs) := by
  induction mine generalizing theirs with
  | nil => exact .ok true
  | cons m ms ih =>
    cases theirs with
    | nil => exact .ok true
    | cons t ts =>
      rw [sameBounds]
      refine (Affine.bindVars_failsOnly _ _).bind fun _ _ => ?_
      split
      · exact .ok false
      · refine (Affine.bindVars_failsOnly _ _).bind fun _ _ => ?_
        split
        · exact .ok false
        · exact ih ts

theorem safe_sharing (name : String) {domain : List Dimension} {buffers : List LoopNest.Buffer}
    {other : LoopNest.Computation} (level : Nat) (hdistinct : (domain.map Dimension.name).Nodup)
    (hnormal : ∀ d ∈ domain, d.lower.Normal ∧ d.upper.Normal) (hnested : Dimension.Nested [] domain)
    (hother : other.WellFormed buffers) :
    SafeIf (level ≠ Decimal.word64Max) (checkSharing name domain other level) := by
  -- the refusal counts the shared loops, one more than the level
  have hincompatible : SafeIf (level ≠ Decimal.word64Max) (if level = Decimal.word64Max then .error (.fault .overflow)
      else Outcome.refuse (.incompatibleSharedLoops name other.name (level + 1)) : Resolved Unit) := by
    split
    · next hlevel => exact FailsOnly.error ⟨rfl, fun h => h hlevel⟩
    · exact SafeIf.refuse _
  have htake {ds : List Dimension} (h : (ds.map Dimension.name).Nodup) :
      ((ds.take (level + 1)).map Dimension.name).Nodup := by
    rw [List.map_take]
    exact h.sublist (List.take_sublist _ _)
  rw [checkSharing]
  simp only
  split
  · exact hincompatible
  · next hdepth =>
    simp only [Bool.or_eq_true, decide_eq_true_eq, not_or, Nat.not_le] at hdepth
    have hlength : (domain.take (level + 1)).length = (other.domain.take (level + 1)).length := by
      rw [List.length_take, List.length_take]
      omega
    refine (SafeIf.lift (sameBounds_failsOnly _ _ _) fun _ => ?_).bind fun same _ => ?_
    · exact exists_sameBounds_renameBy hlength (htake hdistinct) (htake hother.distinct)
        (fun d hd => hnormal d (List.mem_of_mem_take hd)) (Dimension.nested_take hnested _)
    · split
      · exact .ok ()
      · exact hincompatible

theorem safe_after (name : String) {domain : List Dimension} {buffers : List LoopNest.Buffer}
    {earlier : List LoopNest.Computation} (after : Option After) (hdistinct : (domain.map Dimension.name).Nodup)
    (hnormal : ∀ d ∈ domain, d.lower.Normal ∧ d.upper.Normal) (hnested : Dimension.Nested [] domain)
    (hearlier : ∀ c ∈ earlier, c.WellFormed buffers) :
    SafeIf (∀ a ∈ after, a.level ≠ Decimal.word64Max) (resolveAfter name domain earlier after) := by
  cases after with
  | none => exact .ok none
  | some a =>
    rw [resolveAfter]
    split
    · exact SafeIf.refuse _
    · split
      · exact SafeIf.refuse _
      · next other hother =>
        have hwf := hearlier other (List.mem_of_getElem? hother)
        refine ((safe_sharing name a.level hdistinct hnormal hnested hwf).mono fun h => h a rfl).bind fun _ _ => ?_
        exact .ok _

end Sharing

section Programs

def Computation.texts (c : Computation) : List String :=
  c.iterators.flatMap Iterator.texts ++ (c.store.indices ++ c.expr.texts)

/-- The texts of a computation stay within words, and so does the depth of the loops it shares. -/
structure Computation.WithinWords (params : List (String × Int)) (c : Computation) : Prop where
  texts : ∀ text ∈ c.texts, TextWithin params text
  level : ∀ a ∈ c.after, a.level ≠ Decimal.word64Max

instance (params : List (String × Int)) (c : Computation) : Decidable (c.WithinWords params) :=
  decidable_of_iff ((∀ text ∈ c.texts, TextWithin params text) ∧ ∀ a ∈ c.after, a.level ≠ Decimal.word64Max)
    ⟨fun h => ⟨h.1, h.2⟩, fun h => ⟨h.texts, h.level⟩⟩

structure WithinWords (d : Description) : Prop where
  shapes : ∀ b ∈ d.buffers, ∀ text ∈ b.shape, TextWithin d.params text
  computations : ∀ c ∈ d.computations, c.WithinWords d.params

instance (d : Description) : Decidable d.WithinWords :=
  decidable_of_iff ((∀ b ∈ d.buffers, ∀ text ∈ b.shape, TextWithin d.params text) ∧
    ∀ c ∈ d.computations, c.WithinWords d.params)
    ⟨fun h => ⟨h.1, h.2⟩, fun h => ⟨h.shapes, h.computations⟩⟩

variable {params : List (String × Int)}

theorem safe_buffer (b : Buffer) :
    SafeIf (∀ text ∈ b.shape, TextWithin params text) (resolveBuffer params b) := by
  refine (safe_extents ⟨params, [], "buffer " ++ ticked b.name⟩ b.name 0 b.shape).bind fun shape _ => ?_
  split
  · exact .ok _
  · exact SafeIf.refuse _

theorem safe_buffers (done : List LoopNest.Buffer) (bs : List Buffer) :
    SafeIf (∀ b ∈ bs, ∀ text ∈ b.shape, TextWithin params text) (resolveBuffers params done bs) := by
  induction bs generalizing done with
  | nil => exact .ok done
  | cons b bs ih =>
    refine ((safe_buffer b).mono fun h => h b List.mem_cons_self).bind fun _ _ => ?_
    split
    · exact SafeIf.refuse _
    · exact (ih _).mono fun h x hx => h x (List.mem_cons_of_mem _ hx)

theorem safe_computation {buffers : List LoopNest.Buffer} {earlier : List LoopNest.Computation}
    (hearlier : ∀ c ∈ earlier, c.WellFormed buffers) (c : Computation) :
    SafeIf (c.WithinWords params) (resolveComputation params buffers earlier c) := by
  have hbounds : ∀ i ∈ c.iterators, ∀ text ∈ i.texts, text ∈ c.texts := fun i hi text ht =>
    List.mem_append_left _ (List.mem_flatMap.2 ⟨i, hi, ht⟩)
  have hstore : ∀ text ∈ c.store.indices, text ∈ c.texts := fun text ht =>
    List.mem_append_right _ (List.mem_append_left _ ht)
  have hexpr : ∀ text ∈ c.expr.texts, text ∈ c.texts := fun text ht =>
    List.mem_append_right _ (List.mem_append_right _ ht)
  refine ((safe_domain _ [] c.iterators).mono fun h i hi text ht => h.texts text (hbounds i hi text ht)).bind
    fun domain hdomain => ?_
  obtain ⟨_, rfl, hdistinct, hnested⟩ := resolveDomain_eq_ok hdomain List.nodup_nil
  have hnormal := normal_domain hdomain (List.forall_mem_nil _)
  refine ((safe_access _ buffers c.store).mono fun h text ht => h.texts text (hstore text ht)).bind fun store _ => ?_
  split
  · exact SafeIf.refuse _
  · refine ((safe_expr _ buffers c.expr).mono fun h text ht => h.texts text (hexpr text ht)).bind fun expr _ => ?_
    refine ((safe_after c.name c.after hdistinct hnormal hnested hearlier).mono fun h => h.level).bind fun _ _ => ?_
    exact .ok _

theorem safe_computations {buffers : List LoopNest.Buffer} {done : List LoopNest.Computation}
    (hdone : ∀ c ∈ done, c.WellFormed buffers) (cs : List Computation) :
    SafeIf (∀ c ∈ cs, c.WithinWords params) (resolveComputations params buffers done cs) := by
  induction cs generalizing done with
  | nil => exact .ok done
  | cons c cs ih =>
    refine ((safe_computation hdone c).mono fun h => h c List.mem_cons_self).bind fun resolved hresolved => ?_
    have hnext : ∀ x ∈ done ++ [resolved], x.WellFormed buffers :=
      List.forall_mem_append.2 ⟨hdone, List.forall_mem_singleton.2 (wellFormed_computation hresolved)⟩
    split
    · exact SafeIf.refuse _
    · exact (ih hnext).mono fun h x hx => h x (List.mem_cons_of_mem _ hx)

/-- Every description becomes a program, is refused, or overflows, and it does not overflow within words. -/
theorem build_ends (d : Description) : (∃ p, d.build = .ok p) ∨ (∃ e, d.build = Outcome.refuse e) ∨
    d.build = .error (.fault .overflow) ∧ ¬ d.WithinWords := by
  refine SafeIf.cases ?_
  rw [build]
  split
  · exact SafeIf.refuse _
  · refine ((safe_buffers [] d.buffers).mono WithinWords.shapes).bind fun buffers _ => ?_
    have hcomputations : SafeIf d.WithinWords (resolveComputations d.params buffers [] d.computations) :=
      (safe_computations (List.forall_mem_nil _) d.computations).mono WithinWords.computations
    exact hcomputations.bind fun _ _ => .ok _

theorem build_ends_blur : (blur 1000).WithinWords ∧
    ((∃ p, (blur 1000).build = .ok p) ∨ ∃ e, (blur 1000).build = Outcome.refuse e) := by
  have hwithin : (blur 1000).WithinWords := by decide +kernel
  exact ⟨hwithin, (build_ends (blur 1000)).imp_right fun h => h.resolve_right fun h => h.2 hwithin⟩

end Programs

namespace Cancelled

def description : Description where
  name := "cancelled"
  params := [("K", 9223372036854775807), ("L", 9223372036854775807)]
  buffers := [⟨"out", ["1"], .float64, .output⟩]
  computations :=
    [{ name := "c"
       iterators := [⟨"i", "0", "K - L + 1"⟩]
       store := ⟨"out", ["0"]⟩
       expr := .const 1.0 }]

/-- The bound is one, and the description is neither translated nor refused. -/
theorem build_overflows :
    (∃ f, Affine.parse "K - L + 1" = .ok f ∧ f.value (fun a => (param? description.params a).getD 0) = 1) ∧
    description.build = .error (.fault .overflow) :=
  ⟨⟨⟨[⟨1, "K"⟩, ⟨-1, "L"⟩], 1⟩, by decide +kernel, by decide⟩, rfl⟩

end Cancelled

end Description

end LoopNest
