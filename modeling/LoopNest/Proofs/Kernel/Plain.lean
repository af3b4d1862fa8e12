import LoopNest.Proofs.Kernel.Weight
import LoopNest.Proofs.Program.Domain

namespace LoopNest

open Kernel

namespace KernelForm

def single (slot : Nat) : KernelForm := ⟨[(slot, 1)], 0⟩

theorem addTerm_of_not_mem {ts : List (Nat × Int)} {slot : Nat} (h : slot ∉ ts.map Prod.fst) (c : Int) :
    addTerm ts slot c = .ok (ts ++ [(slot, c)]) := by
  induction ts with
  | nil => rfl
  | cons t ts ih =>
    simp only [List.map_cons, List.mem_cons, not_or] at h
    rw [addTerm, if_neg fun heq => h.1 heq.symm, ih h.2]
    rfl

theorem plusMultiple_single {f : KernelForm} (hf : Word.fits f.constant = true) {slot : Nat}
    (h : slot ∉ f.terms.map Prod.fst) {k : Int} (hk : Word.fits k = true) :
    ∃ g, f.plusMultiple (single slot) k = .ok g ∧ g.constant = f.constant ∧
      g.terms.map Prod.fst ⊆ slot :: f.terms.map Prod.fst := by
  have hzero : Word.mul 0 k = .ok 0 := by rw [Word.mul, Int.zero_mul]; rfl
  have hadd : Word.add f.constant 0 = .ok f.constant := by rw [Word.add, Int.add_zero, Word.checked_of_fits hf]
  have hterms : plusMultipleTerms k f.terms [(slot, 1)] = .ok (f.terms ++ [(slot, k)]) := by
    rw [plusMultipleTerms, Word.mul, Int.one_mul, Word.checked_of_fits hk, ok_bind, addTerm_of_not_mem h]
    rfl
  refine ⟨⟨(f.terms ++ [(slot, k)]).filter fun t => t.2 != 0, f.constant⟩, ?_, rfl, fun s hs => ?_⟩
  · rw [plusMultiple, single, hzero, ok_bind, hadd, ok_bind, hterms]
    rfl
  obtain ⟨t, ht, rfl⟩ := List.mem_map.1 hs
  have hmem := (List.mem_filter.1 ht).1
  rcases List.mem_append.1 hmem with hmem | hmem
  · exact List.mem_cons_of_mem _ (List.mem_map_of_mem hmem)
  · rw [List.mem_singleton.1 hmem]
    exact List.mem_cons_self

end KernelForm

namespace Numbering

structure Bindings.Plain (b : Bindings) : Prop where
  single : ∀ v ∈ b.values, ∃ slot, v.2 = .single slot
  distinct : (b.values.map Prod.snd).Nodup

theorem exists_sum_of_plain {b : Bindings} (hplain : b.Plain) {names : List String} (hb : b.Covers names)
    {ts : List Term} (hnames : ∀ t ∈ ts, t.atom ∈ names) (hfits : ∀ t ∈ ts, Word.fits t.coeff = true)
    (hatoms : (ts.map Term.atom).Nodup) {acc : KernelForm} (hconstant : Word.fits acc.constant = true)
    (hacc : ∀ slot ∈ acc.terms.map Prod.fst, ∃ v ∈ b.values, v.2 = .single slot ∧ v.1 ∉ ts.map Term.atom) :
    ∃ g, b.sum acc ts = .ok g := by
  induction ts generalizing acc with
  | nil => exact ⟨acc, rfl⟩
  | cons t ts ih =>
    obtain ⟨hname, hnames⟩ := List.forall_mem_cons.1 hnames
    obtain ⟨hcoeff, hfits⟩ := List.forall_mem_cons.1 hfits
    obtain ⟨hnew, hatoms⟩ := List.nodup_cons.1 hatoms
    obtain ⟨v, hfind⟩ := hb t.atom hname
    have hv := List.mem_of_find?_eq_some hfind
    have hatom : v.1 = t.atom := by simpa using List.find?_some hfind
    obtain ⟨slot, hslot⟩ := hplain.single v hv
    -- the iterator has not occurred, and no other is bound to its slot
    have hfree : slot ∉ acc.terms.map Prod.fst := by
      intro hmem
      obtain ⟨w, hw, hwslot, hwatom⟩ := hacc slot hmem
      have hsame := List.inj_on_of_nodup_map hplain.distinct hw hv (hwslot.trans hslot.symm)
      exact hwatom (hsame ▸ hatom ▸ List.mem_cons_self)
    obtain ⟨next, hnext, hnextConstant, hnextSlots⟩ := KernelForm.plusMultiple_single hconstant hfree hcoeff
    obtain ⟨g, hg⟩ := @ih hnames hfits hatoms next (hnextConstant ▸ hconstant) fun s hs => by
      rcases List.mem_cons.1 (hnextSlots hs) with rfl | hs
      · exact ⟨v, hv, hslot, hatom ▸ hnew⟩
      · obtain ⟨w, hw, hwslot, hwatom⟩ := hacc s hs
        exact ⟨w, hw, hwslot, fun hmem => hwatom (List.mem_cons_of_mem _ hmem)⟩
    exact ⟨g, by simp only [Bindings.sum, hfind, hslot, hnext, lift_ok, ok_bind, hg]⟩

theorem form_var {scope : Scope} {a : String} {g : KernelForm} (h : form scope (.var a) = .ok g) :
    ∃ slot, g = .single slot ∧ scope[slot]? = some a := by
  obtain ⟨terms, hterms, h⟩ := bind_eq_ok.1 h
  cases h
  obtain ⟨hatoms, hcoeffs⟩ := slots_eq_ok hterms
  have hlength := (List.length_map _).symm.trans (congrArg List.length hcoeffs)
  obtain ⟨⟨slot, coeff⟩, rfl⟩ := List.length_eq_one_iff.1 hlength
  cases hcoeffs
  exact ⟨slot, rfl, (List.cons.inj hatoms).1⟩

theorem atoms_of_vars {scope : Scope} {dims : List String} {gs : List KernelForm}
    (h : List.Forall₂ (fun f g => form scope f = .ok g) (dims.map .var) gs) :
    gs.map (fun g => g.terms.map fun t => scope[t.1]?) = dims.map fun a => [some a] := by
  induction dims generalizing gs with
  | nil =>
    cases h
    rfl
  | cons a dims ih =>
    obtain ⟨g, gs, hg, hgs, rfl⟩ := List.forall₂_cons_left_iff.1 h
    obtain ⟨slot, rfl, hslot⟩ := form_var hg
    rw [List.map_cons, List.map_cons, ih hgs, ← hslot]
    rfl

theorem plain_of_vars {scope : Scope} {dims : List String} (hdims : dims.Nodup) {gs : List KernelForm}
    (h : forms scope (dims.map .var) = .ok gs) (name : String) {iterators : List String}
    (hlength : gs.length = iterators.length) : Bindings.Plain ⟨name, iterators.zip gs⟩ := by
  have hsnd : (iterators.zip gs).map Prod.snd = gs := List.map_snd_zip (Nat.le_of_eq hlength)
  refine ⟨fun v hv => ?_, ?_⟩
  · obtain ⟨f, hf, hfv⟩ := (traverses_forms scope).exists_of_mem h (List.of_mem_zip hv).2
    obtain ⟨a, -, rfl⟩ := List.mem_map.1 hf
    obtain ⟨slot, hslot, -⟩ := form_var hfv
    exact ⟨slot, hslot⟩
  · rw [hsnd]
    refine List.Nodup.of_map (fun g : KernelForm => g.terms.map fun t => scope[t.1]?) ?_
    rw [atoms_of_vars ((traverses_forms scope).eq_ok.1 h)]
    exact hdims.map fun a b hab => Option.some.inj (List.cons.inj hab).1

variable {p : Program}

theorem composes_of_plain (hp : p.WellFormed) {l : Leaf} {dims : List String} (hdims : dims.Nodup)
    (hl : l.bindings = dims.map .var) (hnormal : ∀ c ∈ p.computations, c.Normal) :
    Composes (fun _ => False) p l := by
  intro scope c gs hscoped hc hgs f hf
  obtain ⟨c', hc', hlength⟩ := hscoped.computation
  cases hc.symm.trans hc'
  have hmem := List.mem_of_getElem? hc
  have hgslength := ((traverses_forms scope).length_eq hgs).trans hlength
  have hplain := plain_of_vars hdims (hl ▸ hgs) c.name hgslength
  have hfnormal := (hnormal c hmem).forms f hf
  have hconstant : Word.fits (⟨[], f.constant⟩ : KernelForm).constant = true := hfnormal.fits.constant
  obtain ⟨g, hg⟩ := exists_sum_of_plain hplain (covers_zip c.name hgslength)
    (Affine.over_iff.1 ((hp c hmem).over_forms f hf)) hfnormal.fits.coeffs hfnormal.nodup_atoms
    hconstant (fun _ h => absurd h List.not_mem_nil)
  rw [Bindings.form, hg]
  exact .ok g

end Numbering

namespace Affine

theorem termsMagnitude_perm {ts us : List Term} (h : ts.Perm us) (env : String → Int) :
    termsMagnitude env ts = termsMagnitude env us := by
  induction h with
  | nil => rfl
  | cons t _ ih => rw [termsMagnitude, termsMagnitude, ih]
  | swap t u ts =>
    simp only [termsMagnitude]
    omega
  | trans _ _ ih ih' => rw [ih, ih']

theorem termsMagnitude_rename (ρ : String → String) (ts : List Term) (env : String → Int) :
    termsMagnitude env (ts.map (Term.rename ρ)) = termsMagnitude (env ∘ ρ) ts := by
  induction ts with
  | nil => rfl
  | cons t ts ih =>
    rw [List.map_cons, termsMagnitude, termsMagnitude, ih]
    rfl

theorem Renames.magnitude {ρ : String → String} {f g : Affine} (hfg : f.Renames ρ g) (env : String → Int) :
    g.magnitude env = f.magnitude (env ∘ ρ) := by
  rw [Affine.magnitude, Affine.magnitude, hfg.constant, termsMagnitude_perm hfg.terms, termsMagnitude_rename]

theorem natAbs_termsValue_le (env : String → Int) (ts : List Term) :
    (termsValue env ts).natAbs ≤ termsMagnitude env ts := by
  induction ts with
  | nil => exact Nat.le_refl _
  | cons t ts ih =>
    rw [termsValue, termsMagnitude]
    omega

theorem natAbs_value_le (f : Affine) (env : String → Int) : (f.value env).natAbs ≤ f.magnitude env := by
  have hle := natAbs_termsValue_le env f.terms
  rw [value, magnitude]
  omega

theorem magnitude_var (a : String) (env : String → Int) : (var a).magnitude env = (env a).natAbs := by
  simp [magnitude, var, termsMagnitude]

end Affine

def Small (fs : List Affine) (env : Valuation) : List Header → Prop
  | [] => ∀ f ∈ fs, f.magnitude env < 9223372036854775808
  | h :: hs => (∀ f ∈ h.limits, f.magnitude env < 9223372036854775808) ∧
      ∀ v ∈ h.values env, Small fs (Function.update env h.dim v) hs

namespace Numbering

variable {p : Program} {scope : Scope} {env : Env}

theorem exists_evalForms (hlength : scope.length = env.length) {fs : List Affine} {gs : List KernelForm}
    (h : forms scope fs = .ok gs) (hsmall : ∀ f ∈ fs, f.magnitude (valuation scope env) < 9223372036854775808) :
    ∃ q, KernelForm.evalAll env gs = .ok q := by
  refine (KernelForm.traverses_evalAll env).exists_ok fun g hg => ?_
  obtain ⟨f, hf, hfg⟩ := (traverses_forms scope).exists_of_mem h hg
  exact KernelForm.exists_eval_of_magnitude (by rw [magnitude_of_form hlength hfg]; exact hsmall f hf)

theorem exists_bounds (hlength : scope.length = env.length) {next : Nat} {h : Header} {r : Range}
    (hr : RangeOf scope next h r) (hsmall : ∀ f ∈ h.limits, f.magnitude (valuation scope env) < 9223372036854775808) :
    ∃ lower upper, r.bounds env = .ok (lower, upper) := by
  have hforms : ∀ g ∈ r.forms, FailsOnly (fun _ => False) (g.eval env) := by
    intro g hg
    obtain ⟨f, hf, hfg⟩ := form_of_range hr g hg
    have hmagnitude := magnitude_of_form hlength hfg
    obtain ⟨n, hn⟩ := KernelForm.exists_eval_of_magnitude (hmagnitude ▸ hsmall f hf)
    rw [hn]
    exact .ok n
  cases hb : r.bounds env with
  | error e => exact (Range.bounds_failsOnly hforms e hb).elim
  | ok b => exact ⟨b.1, b.2, rfl⟩

theorem exists_traceEach {body : Int → Checked (List Instance)} {count : Nat} {v : Int}
    (h : ∀ w ∈ valuesFrom v count, ∃ t, body w = .ok t ∧ ∀ i ∈ t, ∃ q, i.point = .ok q) :
    ∃ t, traceEach body count v = .ok t ∧ ∀ i ∈ t, ∃ q, i.point = .ok q := by
  induction count generalizing v with
  | zero => exact ⟨[], rfl, nofun⟩
  | succ count ih =>
    rw [valuesFrom_succ] at h
    obtain ⟨⟨first, hfirst, hpoint⟩, hrest⟩ := List.forall_mem_cons.1 h
    obtain ⟨rest, hrest, hpoints⟩ := ih hrest
    exact ⟨first ++ rest, traceEach_succ_eq_ok.2 ⟨first, rest, hfirst, hrest, rfl⟩,
      List.forall_mem_append.2 ⟨hpoint, hpoints⟩⟩

mutual

theorem exists_traceNode (n : LoopNest.Node) {scope : Scope} {next next' : Nat} {k : Kernel.Node}
    (hk : node p scope next n = .ok (k, next')) {env : Env} (hlength : scope.length = env.length)
    (hn : n.Untagged) (hsmall : ∀ s ∈ n.leafStacks, Small s.2.bindings (valuation scope env) s.1)
    (concurrent : List Iteration) :
    ∃ t, traceNode env concurrent k = .ok t ∧ ∀ i ∈ t, ∃ q, i.point = .ok q := by
  cases n with
  | leaf l =>
    obtain ⟨st, hst, rfl, -⟩ := node_leaf_eq_ok hk
    obtain ⟨c, hc⟩ := fromLeaf_of_statement hst
    refine ⟨_, rfl, List.forall_mem_singleton.2 ?_⟩
    exact exists_evalForms hlength hc.iterators (hsmall ([], l) List.mem_cons_self)
  | loop h body =>
    obtain ⟨r, ks, hr, hbody, rfl⟩ := node_loop_eq_ok hk
    have hinner {s : List Header × Leaf} (hs : s ∈ LoopNest.Node.leafStacksAll body) :=
      hsmall (h :: s.1, s.2) (List.mem_map_of_mem hs)
    -- no loop is empty, so there is a leaf below, and the limits are among the forms of its stack
    have hinhabited : ∀ l ∈ (LoopNest.Node.loop h body).loops 0, l.2.2 ≠ [] := fun l hl =>
      ((hn.regular _ false).loops _ l hl).1
    obtain ⟨t, ht⟩ := LoopNest.Node.exists_leafStack _ hinhabited
    obtain ⟨s, hs, -⟩ := List.mem_map.1 ht
    obtain ⟨lower, upper, hbounds⟩ := exists_bounds hlength hr (hinner hs).1
    have hvalues : h.values (valuation scope env) = valuesFrom lower (upper - lower).toNat := by
      obtain ⟨rfl, rfl⟩ := Range.bounds_eq_ok hbounds
      exact (values_of_range hlength hr).symm
    have hinside (v : Int) : (h.dim :: scope).length = (v :: env).length := congrArg Nat.succ hlength
    obtain ⟨t, ht, hpoints⟩ := exists_traceEach fun v hv => exists_traceNodes body hbody (hinside v) hn.2.2
      (fun s hs => (hinner hs).2 v (hvalues ▸ hv)) (r.inside env concurrent v)
    exact ⟨t, traceNode_loop_eq_ok.2 ⟨lower, upper, hbounds, ht⟩, hpoints⟩

theorem exists_traceNodes (ns : List LoopNest.Node) {scope : Scope} {next next' : Nat} {ks : List Kernel.Node}
    (hk : nodes p scope next ns = .ok (ks, next')) {env : Env} (hlength : scope.length = env.length)
    (hns : LoopNest.Node.UntaggedAll ns)
    (hsmall : ∀ s ∈ LoopNest.Node.leafStacksAll ns, Small s.2.bindings (valuation scope env) s.1)
    (concurrent : List Iteration) :
    ∃ t, traceNodes env concurrent ks = .ok t ∧ ∀ i ∈ t, ∃ q, i.point = .ok q := by
  cases ns with
  | nil =>
    cases hk
    exact ⟨[], rfl, nofun⟩
  | cons n ns =>
    obtain ⟨k, mid, rest, hn, hrest, rfl⟩ := nodes_cons_eq_ok hk
    obtain ⟨hfirst, hsmall⟩ := List.forall_mem_append.1 hsmall
    obtain ⟨t, ht, hpoint⟩ := exists_traceNode n hn hlength hns.1 hfirst concurrent
    obtain ⟨u, hu, hpoints⟩ := exists_traceNodes ns hrest hlength hns.2 hsmall concurrent
    exact ⟨t ++ u, traceNodes_cons_eq_ok.2 ⟨t, u, ht, hu, rfl⟩, List.forall_mem_append.2 ⟨hpoint, hpoints⟩⟩

end

end Numbering

theorem exists_ofTree_of_arranged {d : Description} {p : Program} (hp : d.build = .ok p) {s : Initial.State}
    {index : Nat} (ha : Initial.Arranged p s index) : ∃ k, Kernel.ofTree p s.roots = .ok k := by
  have hwf := Description.wellFormed_of_build hp
  have hfails := Kernel.ofTree_failsOnly_of_scoped (P := fun _ => False) (ha.grown.sound.tidy.scoped s.roots)
    fun l hl => by
      rw [← Node.leafStacksAll_map_snd] at hl
      obtain ⟨t, ht, rfl⟩ := List.mem_map.1 hl
      refine Numbering.composes_of_plain hwf
        (ha.grown.sound.dims.sublist (Node.dimsAll_sublist_of_stack s.roots ht)) ?_ (Description.normal_of_build hp)
      rw [ha.grown.plain t ht, List.map_map]
      rfl
  cases hk : Kernel.ofTree p s.roots with
  | ok k => exact ⟨k, rfl⟩
  | error e => exact (hfails e hk).elim

end LoopNest
