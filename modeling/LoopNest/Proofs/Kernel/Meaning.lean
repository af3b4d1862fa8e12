import LoopNest.Kernel.Numbering
import LoopNest.Proofs.Dataflow.Flow
import LoopNest.Proofs.Description.WellFormed

namespace LoopNest

namespace KernelForm

def termsValue (env : Env) : List (Nat × Int) → Int
  | [] => 0
  | t :: ts => t.2 * env.getD t.1 0 + termsValue env ts

def value (f : KernelForm) (env : Env) : Int := f.constant + termsValue env f.terms

variable {env : Env}

theorem evalTerms_eq_ok {ts : List (Nat × Int)} {total n : Int} (h : evalTerms env total ts = .ok n) :
    n = total + termsValue env ts := by
  induction ts generalizing total with
  | nil => cases h; simp [termsValue]
  | cons t ts ih =>
    obtain ⟨p, hp, h⟩ := bind_eq_ok.1 h
    obtain ⟨next, hn, h⟩ := bind_eq_ok.1 h
    obtain ⟨rfl, -⟩ := Word.mul_eq_ok.1 hp
    obtain ⟨rfl, -⟩ := Word.add_eq_ok.1 hn
    rw [ih h, termsValue]
    omega

theorem eval_eq_ok {f : KernelForm} {n : Int} (h : f.eval env = .ok n) : n = f.value env :=
  evalTerms_eq_ok h

theorem traverses_evalAll (env : Env) : Traverses (fun f : KernelForm => f.eval env) (evalAll env) :=
  ⟨rfl, fun _ _ => rfl⟩

theorem evalAll_eq_ok {fs : List KernelForm} {ns : List Int} (h : evalAll env fs = .ok ns) :
    ns = fs.map (fun f => f.value env) := (traverses_evalAll env).eq_map (fun _ _ hn => eval_eq_ok hn) h

theorem termsValue_addTerm {ts us : List (Nat × Int)} {slot : Nat} {c : Int}
    (h : addTerm ts slot c = .ok us) : termsValue env us = termsValue env ts + c * env.getD slot 0 := by
  induction ts generalizing us with
  | nil => cases h; simp [termsValue]
  | cons t ts ih =>
    rw [addTerm] at h
    split at h
    · next hs =>
      obtain ⟨d, hd, h⟩ := bind_eq_ok.1 h
      obtain ⟨rfl, -⟩ := Word.add_eq_ok.1 hd
      cases h
      simp only [termsValue, hs, Int.add_mul]
      omega
    · obtain ⟨rest, hr, h⟩ := bind_eq_ok.1 h
      cases h
      simp only [termsValue, ih hr]
      omega

theorem termsValue_plusMultipleTerms {scale : Int} {acc ts us : List (Nat × Int)}
    (h : plusMultipleTerms scale acc ts = .ok us) :
    termsValue env us = termsValue env acc + scale * termsValue env ts := by
  induction ts generalizing acc with
  | nil => cases h; simp [termsValue]
  | cons t ts ih =>
    rw [plusMultipleTerms] at h
    obtain ⟨c, hc, h⟩ := bind_eq_ok.1 h
    obtain ⟨rfl, -⟩ := Word.mul_eq_ok.1 hc
    obtain ⟨next, hn, h⟩ := bind_eq_ok.1 h
    rw [ih h, termsValue_addTerm hn, termsValue, Int.mul_add, ← Int.mul_assoc, Int.mul_comm scale t.2]
    omega

theorem termsValue_filter (ts : List (Nat × Int)) :
    termsValue env (ts.filter fun t => t.2 != 0) = termsValue env ts := by
  induction ts with
  | nil => rfl
  | cons t ts ih => by_cases h : t.2 = 0 <;> simp [h, termsValue, ih]

theorem value_plusMultiple {f g h : KernelForm} {scale : Int} (e : f.plusMultiple g scale = .ok h) :
    h.value env = f.value env + scale * g.value env := by
  obtain ⟨c, hc, e⟩ := bind_eq_ok.1 e
  obtain ⟨constant, hk, e⟩ := bind_eq_ok.1 e
  obtain ⟨terms, ht, e⟩ := bind_eq_ok.1 e
  obtain ⟨rfl, -⟩ := Word.mul_eq_ok.1 hc
  obtain ⟨rfl, -⟩ := Word.add_eq_ok.1 hk
  cases e
  simp only [value, termsValue_filter, termsValue_plusMultipleTerms ht, Int.mul_add,
    Int.mul_comm g.constant]
  omega

end KernelForm

def pointEnv (names : List String) (point : List Int) (a : String) : Int :=
  match (names.zip point).find? (fun v => v.1 == a) with
  | some v => v.2
  | none => 0

def offsetFrom : Nat → List (Int × Nat × Nat) → Option Nat
  | total, [] => some total
  | total, (v, extent, stride) :: rest =>
    if v < 0 ∨ (extent : Int) ≤ v then none else offsetFrom (total + v.toNat * stride) rest

def Access.locationAt (p : Program) (env : String → Int) (a : Access) : Location :=
  match p.buffers[a.buffer]? with
  | some b => (a.buffer, offsetFrom 0 ((a.indices.map (fun f => f.value env)).zip (b.shape.zip b.strides)))
  | none => (a.buffer, some 0)

def Expr.valueFrom {V : Type} (A : Arithmetic V) (env : String → Int) (loaded : Nat → V) (next : Nat) :
    Expr → V
  | const v => A.ofConst v
  | iter name => A.ofInt (env name)
  | load _ => loaded next
  | binary op l r =>
    A.binary op (l.valueFrom A env loaded next) (r.valueFrom A env loaded (next + l.loads.length))
  | neg e => A.neg (e.valueFrom A env loaded next)
  | call f e => A.call f (e.valueFrom A env loaded next)

namespace Computation

def locationsAt (c : Computation) (p : Program) (point : List Int) : List Location :=
  c.expr.loads.map (Access.locationAt p (pointEnv c.iterators point))

def storeAt (c : Computation) (p : Program) (point : List Int) : Location :=
  c.store.locationAt p (pointEnv c.iterators point)

end Computation

def Visit.Obeys (p : Program) (v : Visit) : Prop :=
  ∃ c, p.computations[v.id.1]? = some c ∧ v.reads = c.locationsAt p v.id.2 ∧ v.store = c.storeAt p v.id.2

theorem offsetFrom_lt {vs : List Int} {shape : List Nat} {total n : Nat} (hl : vs.length = shape.length)
    (h : offsetFrom total (vs.zip (shape.zip (rowMajorStrides shape))) = some n) :
    n < total + product shape := by
  induction shape generalizing vs total with
  | nil =>
    simp only [List.zip_nil_left, List.zip_nil_right, offsetFrom, Option.some.injEq] at h
    simp [product, h]
  | cons extent shape ih =>
    obtain _ | ⟨v, vs⟩ := vs
    · simp at hl
    · rw [rowMajorStrides, List.zip_cons_cons, List.zip_cons_cons, offsetFrom] at h
      split at h
      · cases h
      · next hin =>
        have hlt := ih (by simpa using hl) h
        have hrow : (v.toNat + 1) * product shape ≤ extent * product shape :=
          Nat.mul_le_mul_right _ (by omega)
        rw [Nat.add_mul, Nat.one_mul] at hrow
        change n < total + extent * product shape
        omega

theorem Access.inside_of_wellFormed {p : Program} {names : List String} {a : Access}
    (ha : a.WellFormed p.buffers names) {env : String → Int} (hs : (a.locationAt p env).2.isSome) :
    Flow.Inside p (a.locationAt p env) := by
  obtain ⟨b, hb, hl⟩ := ha.buffer
  obtain ⟨n, hn⟩ := Option.isSome_iff_exists.1 hs
  rw [locationAt, hb] at hn ⊢
  refine ⟨b, n, hb, hn, ?_⟩
  have hlt := offsetFrom_lt (by simpa using hl) hn
  simpa [Buffer.volume] using hlt

theorem Visit.Obeys.inside {p : Program} (hp : p.WellFormed) {v : Visit} (hv : v.Obeys p) {a : Location}
    (ha : a ∈ v.locations) (hs : a.2.isSome) : Flow.Inside p a := by
  obtain ⟨c, hc, hreads, hstore⟩ := hv
  have hw := hp c (List.mem_of_getElem? hc)
  rcases List.mem_cons.1 ha with rfl | ha
  · rw [hstore] at hs ⊢
    exact Access.inside_of_wellFormed hw.store hs
  · rw [hreads] at ha
    obtain ⟨b, hb, rfl⟩ := List.mem_map.1 ha
    exact Access.inside_of_wellFormed (hw.expr.loads b hb) hs

namespace Numbering

open KernelForm

variable {b : Bindings} {p : Program} {env : Env}

def Bindings.valueOf (b : Bindings) (env : Env) (a : String) : Int :=
  match b.values.find? (fun v => v.1 == a) with
  | some v => v.2.value env
  | none => 0

theorem Bindings.valueOf_zip (name : String) (names : List String) (forms : List KernelForm) :
    Bindings.valueOf ⟨name, names.zip forms⟩ env = pointEnv names (forms.map fun f => f.value env) := by
  funext a
  simp only [Bindings.valueOf, pointEnv, List.zip_map_right, List.find?_map]
  change _ = match Option.map (Prod.map id fun f => f.value env) ((names.zip forms).find? fun v => v.1 == a) with
    | some v => v.2
    | none => 0
  cases (names.zip forms).find? (fun v => v.1 == a) <;> rfl

theorem Bindings.valueOf_of_point {name : String} {names : List String} {forms : List KernelForm}
    {point : List Int} (hp : evalAll env forms = .ok point) :
    Bindings.valueOf ⟨name, names.zip forms⟩ env = pointEnv names point := by
  rw [evalAll_eq_ok hp, Bindings.valueOf_zip]

theorem value_sum {acc g : KernelForm} {ts : List Term} (h : b.sum acc ts = .ok g) :
    g.value env = acc.value env + Affine.termsValue (b.valueOf env) ts := by
  induction ts generalizing acc with
  | nil => cases h; simp [Affine.termsValue]
  | cons t ts ih =>
    rw [Bindings.sum] at h
    cases hf : b.values.find? (fun v => v.1 == t.atom) with
    | none => simp only [hf] at h; cases h
    | some v =>
      simp only [hf, bind_eq_ok, lift_eq_ok] at h
      obtain ⟨next, hn, h⟩ := h
      have hv : b.valueOf env t.atom = v.2.value env := by simp only [Bindings.valueOf, hf]
      rw [ih h, value_plusMultiple hn, Affine.termsValue, hv]
      omega

theorem value_form {f : Affine} {g : KernelForm} (h : b.form f = .ok g) :
    g.value env = f.value (b.valueOf env) := by
  rw [value_sum h, Affine.value]
  simp [value, KernelForm.termsValue]

theorem Bindings.traverses_forms (b : Bindings) : Traverses b.form b.forms := ⟨rfl, fun _ _ => rfl⟩

theorem traverses_forms (scope : Scope) : Traverses (form scope) (forms scope) := ⟨rfl, fun _ _ => rfl⟩

theorem value_forms {fs : List Affine} {gs : List KernelForm} (h : b.forms fs = .ok gs) :
    gs.map (fun g => g.value env) = fs.map (fun f => f.value (b.valueOf env)) :=
  b.traverses_forms.map_eq (fun _ _ hg => value_form hg) h

theorem offsetFrom_eq_ok {idx : List (KernelForm × Nat × Nat)} {total : Nat} {o : Option Nat}
    (h : Place.offsetFrom env total idx = .ok o) :
    o = LoopNest.offsetFrom total (idx.map fun i => (i.1.value env, i.2)) := by
  induction idx generalizing total with
  | nil => cases h; rfl
  | cons i idx ih =>
    obtain ⟨n, hn, h⟩ := bind_eq_ok.1 h
    rw [List.map_cons, LoopNest.offsetFrom, ← eval_eq_ok hn]
    split at h
    · next hout => cases h; rw [if_pos hout]
    · next hin => rw [if_neg hin]; exact ih h

theorem location_place {a : Access} {place : Place} (h : b.place p a = .ok place) {l : Location}
    (hl : place.location env = .ok l) : l = a.locationAt p (b.valueOf env) := by
  obtain ⟨gs, hg, h⟩ := bind_eq_ok.1 h
  obtain ⟨o, ho, rfl⟩ := Place.location_eq_ok.1 hl
  cases hb : p.buffers[a.buffer]? with
  | none =>
    simp only [hb, List.zip_nil_right] at h
    cases h
    cases ho
    simp [Access.locationAt, hb]
  | some buffer =>
    simp only [hb] at h
    cases h
    have hm : (gs.zip (buffer.shape.zip buffer.strides)).map (fun i => (i.1.value env, i.2)) =
        (a.indices.map fun f => f.value (b.valueOf env)).zip (buffer.shape.zip buffer.strides) := by
      rw [← value_forms hg, List.zip_map_left]
      rfl
    simp only [Access.locationAt, hb, offsetFrom_eq_ok ho, hm]

theorem locations_expr {e : Expr} {next : Nat} {value : KernelExpr} {places : List Place}
    (h : b.expr p next e = .ok (value, places)) :
    List.Forall₂ (fun a place => b.place p a = .ok place) e.loads places := by
  induction e generalizing next value places with
  | const v => cases h; exact .nil
  | iter name =>
    obtain ⟨f, -, h⟩ := bind_eq_ok.1 h
    cases h
    exact .nil
  | load a =>
    obtain ⟨place, hp, h⟩ := bind_eq_ok.1 h
    cases h
    exact .cons hp .nil
  | binary op l r ihl ihr =>
    obtain ⟨⟨lv, ls⟩, hl, h⟩ := bind_eq_ok.1 h
    obtain ⟨⟨rv, rs⟩, hr, h⟩ := bind_eq_ok.1 h
    cases h
    exact List.rel_append (ihl hl) (ihr hr)
  | neg e ih =>
    obtain ⟨⟨v, es⟩, he, h⟩ := bind_eq_ok.1 h
    cases h
    exact ih he
  | call f e ih =>
    obtain ⟨⟨v, es⟩, he, h⟩ := bind_eq_ok.1 h
    cases h
    exact ih he

theorem value_expr {V : Type} {A : Arithmetic V} {loaded : Array V} {e : Expr} {next : Nat}
    {value : KernelExpr} {places : List Place} (h : b.expr p next e = .ok (value, places)) {v : V}
    (hv : value.eval A loaded env = .ok v) :
    v = e.valueFrom A (b.valueOf env) (fun n => loaded.getD n A.zero) next := by
  induction e generalizing next value places v with
  | const c => cases h; cases hv; rfl
  | iter name =>
    obtain ⟨f, hf, h⟩ := bind_eq_ok.1 h
    cases h
    obtain ⟨n, hn, hv⟩ := bind_eq_ok.1 hv
    cases hv
    rw [eval_eq_ok hn, value_form hf, Affine.value_var]
    rfl
  | load a =>
    obtain ⟨place, -, h⟩ := bind_eq_ok.1 h
    cases h
    cases hv
    rfl
  | binary op l r ihl ihr =>
    obtain ⟨⟨lv, ls⟩, hl, h⟩ := bind_eq_ok.1 h
    obtain ⟨⟨rv, rs⟩, hr, h⟩ := bind_eq_ok.1 h
    cases h
    obtain ⟨x, y, hx, hy, rfl⟩ := bind₂_eq_ok.1 hv
    -- the right operand counts its loads from where the left one stops
    rw [ihl hl hx, ihr hr hy, ← (locations_expr hl).length_eq]
    rfl
  | neg e ih =>
    obtain ⟨⟨w, es⟩, he, h⟩ := bind_eq_ok.1 h
    cases h
    obtain ⟨x, hx, hv⟩ := bind_eq_ok.1 hv
    cases hv
    rw [ih he hx]
    rfl
  | call f e ih =>
    obtain ⟨⟨w, es⟩, he, h⟩ := bind_eq_ok.1 h
    cases h
    obtain ⟨x, hx, hv⟩ := bind_eq_ok.1 hv
    cases hv
    rw [ih he hx]
    rfl

theorem locations_places {as : List Access} {places : List Place}
    (h : List.Forall₂ (fun a place => b.place p a = .ok place) as places) {ls : List Location}
    (hl : Place.locations env places = .ok ls) : ls = as.map (Access.locationAt p (b.valueOf env)) := by
  induction h generalizing ls with
  | nil => cases hl; rfl
  | cons ha _ ih =>
    obtain ⟨l, rest, hla, hr, rfl⟩ := bind₂_eq_ok.1 hl
    rw [List.map_cons, location_place ha hla, ih hr]

structure FromLeaf (p : Program) (scope : Scope) (l : Leaf) (st : Statement) (c : Computation) : Prop where
  computation : p.computations[l.computation]? = some c
  same : st.computation = l.computation
  iterators : forms scope l.bindings = .ok st.iterators
  value : Bindings.expr ⟨c.name, c.iterators.zip st.iterators⟩ p 0 c.expr = .ok (st.value, st.reads)
  store : Bindings.place ⟨c.name, c.iterators.zip st.iterators⟩ p c.store = .ok st.store

theorem fromLeaf_of_statement {scope : Scope} {l : Leaf} {st : Statement}
    (h : statement p scope l = .ok st) : ∃ c, FromLeaf p scope l st c := by
  rw [statement] at h
  cases hc : p.computations[l.computation]? with
  | none => simp only [hc] at h; cases h
  | some c =>
    simp only [hc] at h
    obtain ⟨iterators, hi, h⟩ := bind_eq_ok.1 h
    obtain ⟨⟨value, reads⟩, he, h⟩ := bind_eq_ok.1 h
    obtain ⟨store, hs, h⟩ := bind_eq_ok.1 h
    cases h
    exact ⟨c, hc, rfl, hi, he, hs⟩

end Numbering

def Statement.IsOf (p : Program) (st : Statement) : Prop :=
  ∃ scope l, Numbering.statement p scope l = .ok st

theorem Instance.obeys_of_visit {p : Program} {i : Instance} (hi : i.statement.IsOf p) {v : Visit}
    (hv : i.visit = .ok v) : v.Obeys p := by
  obtain ⟨scope, l, hl⟩ := hi
  obtain ⟨c, hc⟩ := Numbering.fromLeaf_of_statement hl
  obtain ⟨point, reads, store, hp, hr, hs, rfl⟩ := Instance.visit_eq_ok.1 hv
  refine ⟨c, ?_, ?_, ?_⟩
  · simpa only [hc.same] using hc.computation
  · rw [Computation.locationsAt, ← Numbering.Bindings.valueOf_of_point hp]
    exact Numbering.locations_places (Numbering.locations_expr hc.value) hr
  · rw [Computation.storeAt, ← Numbering.Bindings.valueOf_of_point hp]
    exact Numbering.location_place hc.store hs

namespace Numbering

mutual

theorem leaf_of_node {p : Program} {scope : Scope} {next next' : Nat} (n : LoopNest.Node) {k : Kernel.Node}
    (h : node p scope next n = .ok (k, next')) {st : Statement} (hst : st ∈ Kernel.statementsOf k) :
    ∃ around, ∃ l ∈ n.leaves, statement p around l = .ok st := by
  cases n with
  | leaf l =>
    obtain ⟨s, hs, rfl, -⟩ := node_leaf_eq_ok h
    rw [Kernel.statementsOf, List.mem_singleton] at hst
    exact ⟨scope, l, List.mem_cons_self, hst ▸ hs⟩
  | loop hd body =>
    obtain ⟨r, ks, -, hb, rfl⟩ := node_loop_eq_ok h
    exact leaf_of_nodes body hb hst

theorem leaf_of_nodes {p : Program} {scope : Scope} {next next' : Nat} (ns : List LoopNest.Node)
    {ks : List Kernel.Node} (h : nodes p scope next ns = .ok (ks, next')) {st : Statement}
    (hst : st ∈ Kernel.statementsOfAll ks) :
    ∃ around, ∃ l ∈ LoopNest.Node.leavesAll ns, statement p around l = .ok st := by
  cases ns with
  | nil => cases h; cases hst
  | cons n ns =>
    obtain ⟨k, mid, ks, hn, hns, rfl⟩ := nodes_cons_eq_ok h
    rcases List.mem_append.1 hst with hst | hst
    · obtain ⟨around, l, hl, hst⟩ := leaf_of_node n hn hst
      exact ⟨around, l, List.mem_append_left _ hl, hst⟩
    · obtain ⟨around, l, hl, hst⟩ := leaf_of_nodes ns hns hst
      exact ⟨around, l, List.mem_append_right _ hl, hst⟩

end

end Numbering

namespace Kernel

theorem leaf_of_trace {p : Program} {roots : List LoopNest.Node} {k : Kernel} (hk : ofTree p roots = .ok k)
    {t : List Instance} (ht : k.trace = .ok t) {i : Instance} (hi : i ∈ t) :
    ∃ scope, ∃ l ∈ LoopNest.Node.leavesAll roots, Numbering.statement p scope l = .ok i.statement := by
  obtain ⟨⟨body, loops⟩, hb, hk⟩ := bind_eq_ok.1 hk
  cases hk
  exact Numbering.leaf_of_nodes roots hb (statement_mem_traceNodes body ht hi)

theorem isOf_of_trace {p : Program} {roots : List LoopNest.Node} {k : Kernel} (hk : ofTree p roots = .ok k)
    {t : List Instance} (ht : k.trace = .ok t) {i : Instance} (hi : i ∈ t) : i.statement.IsOf p := by
  obtain ⟨scope, l, -, hl⟩ := leaf_of_trace hk ht hi
  exact ⟨scope, l, hl⟩

theorem obeys_of_visits {p : Program} {roots : List LoopNest.Node} {k : Kernel} (hk : ofTree p roots = .ok k)
    {vs : List Visit} (hv : k.visits = .ok vs) {v : Visit} (hmem : v ∈ vs) : v.Obeys p := by
  obtain ⟨t, ht, hv⟩ := bind_eq_ok.1 hv
  obtain ⟨i, hi, hiv⟩ := Instance.traverses_visits.exists_of_mem hv hmem
  exact Instance.obeys_of_visit (isOf_of_trace hk ht hi) hiv

end Kernel

end LoopNest
