import LoopNest.Affine.Lemmas
import LoopNest.Proofs.Kernel.Meaning
import LoopNest.Proofs.Tree.Points

namespace LoopNest

namespace KernelForm

variable {env : Env}

theorem evalTerms_failsOnly (total : Int) (ts : List (Nat × Int)) :
    FailsOnlyBy .overflow (evalTerms env total ts) := by
  induction ts generalizing total with
  | nil => exact .ok _
  | cons t ts ih =>
    exact (Word.checked_failsOnly _).bind fun p _ => (Word.checked_failsOnly _).bind fun next _ => ih next

theorem eval_failsOnly (f : KernelForm) : FailsOnlyBy .overflow (f.eval env) := evalTerms_failsOnly _ _

end KernelForm

theorem Instance.point_failsOnly (i : Instance) : FailsOnlyBy .overflow i.point :=
  (KernelForm.traverses_evalAll i.env).failsOnly fun f _ => KernelForm.eval_failsOnly f

namespace KernelExpr

def forms : KernelExpr → List KernelForm
  | const _ => []
  | slot f => [f]
  | load _ => []
  | binary _ l r => l.forms ++ r.forms
  | neg e => e.forms
  | call _ e => e.forms

theorem eval_failsOnly {V : Type} {A : Arithmetic V} {loaded : Array V} {env : Env} {e : KernelExpr}
    {P : Fault → Prop} (h : ∀ f ∈ e.forms, FailsOnly P (f.eval env)) : FailsOnly P (e.eval A loaded env) := by
  induction e with
  | const c => exact .ok _
  | slot f => exact (h f List.mem_cons_self).bind fun n _ => .ok _
  | load n => exact .ok _
  | binary op l r ihl ihr =>
    have hl := ihl fun f hf => h f (List.mem_append_left _ hf)
    have hr := ihr fun f hf => h f (List.mem_append_right _ hf)
    exact hl.bind fun a _ => hr.bind fun b _ => .ok _
  | neg e ih => exact (ih h).bind fun a _ => .ok _
  | call f e ih => exact (ih h).bind fun a _ => .ok _

end KernelExpr

namespace Range

def forms (r : Range) : List KernelForm := r.lower :: r.upper :: r.clamp.toList

def top (r : Range) (env : Env) : Int :=
  match r.clamp with
  | none => r.upper.value env
  | some c => min (r.upper.value env) (c.value env)

def values (r : Range) (env : Env) : List Int :=
  valuesFrom (r.lower.value env) (r.top env - r.lower.value env).toNat

variable {r : Range} {env : Env}

theorem bounds_eq_ok {lower upper : Int} (h : r.bounds env = .ok (lower, upper)) :
    lower = r.lower.value env ∧ upper = r.top env := by
  obtain ⟨l, hl, h⟩ := bind_eq_ok.1 h
  obtain ⟨u, hu, h⟩ := bind_eq_ok.1 h
  cases hc : r.clamp with
  | none =>
    simp only [hc] at h
    cases h
    simp only [top, hc]
    exact ⟨KernelForm.eval_eq_ok hl, KernelForm.eval_eq_ok hu⟩
  | some c =>
    simp only [hc] at h
    obtain ⟨clamp, hclamp, h⟩ := bind_eq_ok.1 h
    cases h
    simp only [top, hc, ← KernelForm.eval_eq_ok hu, ← KernelForm.eval_eq_ok hclamp, and_true]
    exact KernelForm.eval_eq_ok hl

theorem bounds_failsOnly {P : Fault → Prop} (h : ∀ f ∈ r.forms, FailsOnly P (f.eval env)) :
    FailsOnly P (r.bounds env) := by
  have hlower : FailsOnly P (r.lower.eval env) := h _ List.mem_cons_self
  have hupper : FailsOnly P (r.upper.eval env) := h _ (List.mem_cons_of_mem _ List.mem_cons_self)
  refine hlower.bind fun lower _ => hupper.bind fun upper _ => ?_
  cases hc : r.clamp with
  | none => exact .ok _
  | some c =>
    have hclamp : FailsOnly P (c.eval env) := h c (by simp [forms, hc])
    exact hclamp.bind fun clamp _ => .ok _

end Range

namespace Kernel

mutual

def instancesNode (env : Env) (concurrent : List Iteration) : Node → List Instance
  | .leaf st => [⟨st, env, concurrent⟩]
  | .loop r body => (r.values env).flatMap fun v => instancesNodes (v :: env) (r.inside env concurrent v) body

def instancesNodes (env : Env) (concurrent : List Iteration) : List Node → List Instance
  | [] => []
  | n :: ns => instancesNode env concurrent n ++ instancesNodes env concurrent ns

end

def instances (k : Kernel) : List Instance := instancesNodes [] [] k.body

theorem traceEach_eq {body : Int → Checked (List Instance)} {exact : Int → List Instance}
    (hb : ∀ v t, body v = .ok t → t = exact v) {count : Nat} {v : Int} {t : List Instance}
    (ht : traceEach body count v = .ok t) : t = (valuesFrom v count).flatMap exact := by
  induction count generalizing v t with
  | zero =>
    cases ht
    rfl
  | succ count ih =>
    obtain ⟨first, rest, hf, hr, rfl⟩ := traceEach_succ_eq_ok.1 ht
    rw [valuesFrom_succ, List.flatMap_cons, hb v first hf, ih hr]

mutual

theorem traceNode_eq {env : Env} {concurrent : List Iteration} (n : Node) {t : List Instance}
    (ht : traceNode env concurrent n = .ok t) : t = instancesNode env concurrent n := by
  cases n with
  | leaf st =>
    cases ht
    rfl
  | loop r body =>
    obtain ⟨lower, upper, hb, ht⟩ := traceNode_loop_eq_ok.1 ht
    obtain ⟨rfl, rfl⟩ := Range.bounds_eq_ok hb
    exact traceEach_eq (fun v t h => traceNodes_eq body h) ht

theorem traceNodes_eq {env : Env} {concurrent : List Iteration} (ns : List Node) {t : List Instance}
    (ht : traceNodes env concurrent ns = .ok t) : t = instancesNodes env concurrent ns := by
  cases ns with
  | nil =>
    cases ht
    rfl
  | cons n ns =>
    obtain ⟨first, rest, hf, hr, rfl⟩ := traceNodes_cons_eq_ok.1 ht
    rw [instancesNodes, traceNode_eq n hf, traceNodes_eq ns hr]

end

theorem trace_eq {k : Kernel} {t : List Instance} (ht : k.trace = .ok t) : t = k.instances :=
  traceNodes_eq k.body ht

theorem traceEach_failsOnly {body : Int → Checked (List Instance)}
    (hb : ∀ v, FailsOnlyBy .overflow (body v)) (count : Nat) (v : Int) :
    FailsOnlyBy .overflow (traceEach body count v) := by
  induction count generalizing v with
  | zero => exact .ok _
  | succ count ih => exact (hb v).bind fun first _ => (ih (v + 1)).bind fun rest _ => .ok _

mutual

theorem traceNode_failsOnly (env : Env) (concurrent : List Iteration) (n : Node) :
    FailsOnlyBy .overflow (traceNode env concurrent n) := by
  cases n with
  | leaf st => exact .ok _
  | loop r body =>
    exact (Range.bounds_failsOnly fun f _ => KernelForm.eval_failsOnly f).bind fun _ _ =>
      traceEach_failsOnly (fun v => traceNodes_failsOnly _ _ body) _ _

theorem traceNodes_failsOnly (env : Env) (concurrent : List Iteration) (ns : List Node) :
    FailsOnlyBy .overflow (traceNodes env concurrent ns) := by
  cases ns with
  | nil => exact .ok _
  | cons n ns =>
    exact (traceNode_failsOnly env concurrent n).bind fun first _ =>
      (traceNodes_failsOnly env concurrent ns).bind fun rest _ => .ok _

end

theorem trace_failsOnly (k : Kernel) : FailsOnlyBy .overflow k.trace := traceNodes_failsOnly [] [] k.body

end Kernel

def UpTo {ε α : Type} (P : ε → Prop) (x y : Except ε α) : Prop := x = y ∨ ∃ e, P e ∧ x = .error e

namespace UpTo

variable {ε α β : Type} {P : ε → Prop}

theorem refl (x : Except ε α) : UpTo P x x := Or.inl rfl

theorem bind {x y : Except ε α} {f g : α → Except ε β} (hx : UpTo P x y) (hf : ∀ a, UpTo P (f a) (g a)) :
    UpTo P (x >>= f) (y >>= g) := by
  rcases hx with rfl | ⟨e, he, rfl⟩
  · cases x with
    | ok a => exact hf a
    | error e => exact refl _
  · exact Or.inr ⟨e, he, rfl⟩

theorem of_failsOnly {x : Except ε α} {a : α} (hx : FailsOnly P x) (h : ∀ b, x = .ok b → b = a) :
    UpTo P x (.ok a) := by
  cases hc : x with
  | ok b => exact Or.inl (congrArg _ (h b hc))
  | error e => exact Or.inr ⟨e, hx e hc, rfl⟩

theorem eq_ok {x y : Except ε α} (h : UpTo P x y) {a : α} (hx : x = .ok a) : y = .ok a := by
  rcases h with rfl | ⟨e, -, he⟩
  · exact hx
  · cases hx.symm.trans he

theorem eq {x y : Except ε α} (h : UpTo (fun _ => False) x y) : x = y :=
  h.resolve_right fun ⟨_, he, _⟩ => he

end UpTo

def Failure.IsFault {ε : Type} (P : Fault → Prop) : Failure ε → Prop
  | .fault f => P f
  | .refused _ => False

def Place.forms (p : Place) : List KernelForm := p.indices.map Prod.fst

def Statement.forms (st : Statement) : List KernelForm :=
  st.iterators ++ (st.reads ++ [st.store]).flatMap Place.forms ++ st.value.forms

namespace Kernel

mutual

def Node.Evaluates (P : Fault → Prop) (env : Env) : Node → Prop
  | .leaf st => ∀ f ∈ st.forms, FailsOnly P (f.eval env)
  | .loop r body =>
    (∀ f ∈ r.forms, FailsOnly P (f.eval env)) ∧ ∀ v ∈ r.values env, EvaluatesAll P (v :: env) body

def EvaluatesAll (P : Fault → Prop) (env : Env) : List Node → Prop
  | [] => True
  | n :: ns => n.Evaluates P env ∧ EvaluatesAll P env ns

end

mutual

theorem Node.evaluates (n : Node) (env : Env) : n.Evaluates (· = .overflow) env := by
  cases n with
  | leaf st => exact fun f _ => KernelForm.eval_failsOnly f
  | loop r body => exact ⟨fun f _ => KernelForm.eval_failsOnly f, fun v _ => evaluatesAll body (v :: env)⟩

theorem evaluatesAll (ns : List Node) (env : Env) : EvaluatesAll (· = .overflow) env ns := by
  cases ns with
  | nil => trivial
  | cons n ns => exact ⟨n.evaluates env, evaluatesAll ns env⟩

end

section Walk

variable {P : Fault → Prop} {ε σ : Type} (visit : Instance → σ → Outcome ε σ)

theorem forEach_upTo {step : Int → σ → Outcome ε σ} {body : Int → List Instance} {v : Int} {count : Nat}
    (h : ∀ w ∈ valuesFrom v count, ∀ s, UpTo (Failure.IsFault P) (step w s) (visitAll visit (body w) s)) (s : σ) :
    UpTo (Failure.IsFault P) (forEach step count v s) (visitAll visit ((valuesFrom v count).flatMap body) s) := by
  induction count generalizing v s with
  | zero => exact .refl _
  | succ count ih =>
    rw [valuesFrom_succ] at h ⊢
    rw [forEach, List.flatMap_cons, visitAll_append]
    exact (h v List.mem_cons_self s).bind fun s => ih (fun w hw => h w (List.mem_cons_of_mem v hw)) s

mutual

theorem walkNode_upTo {env : Env} (n : Node) (hn : n.Evaluates P env) (concurrent : List Iteration) (s : σ) :
    UpTo (Failure.IsFault P) (walkNode visit env concurrent n s)
      (visitAll visit (instancesNode env concurrent n) s) := by
  cases n with
  | leaf st =>
    simp only [walkNode, instancesNode, visitAll_cons, visitAll_nil]
    exact Or.inl (bind_pure _).symm
  | loop r body =>
    obtain ⟨hforms, hbody⟩ := hn
    rw [walkNode]
    cases hbounds : r.bounds env with
    | error f => exact Or.inr ⟨.fault f, Range.bounds_failsOnly hforms f hbounds, rfl⟩
    | ok bounds =>
      obtain ⟨hlower, hupper⟩ := Range.bounds_eq_ok hbounds
      simp only [lift_ok, ok_bind, hlower, hupper]
      exact forEach_upTo visit (fun v hv s => walkNodes_upTo body (hbody v hv) (r.inside env concurrent v) s) s

theorem walkNodes_upTo {env : Env} (ns : List Node) (hns : EvaluatesAll P env ns) (concurrent : List Iteration)
    (s : σ) : UpTo (Failure.IsFault P) (walkNodes visit env concurrent ns s)
      (visitAll visit (instancesNodes env concurrent ns) s) := by
  cases ns with
  | nil => exact .refl _
  | cons n ns =>
    rw [walkNodes, instancesNodes, visitAll_append]
    exact (walkNode_upTo n hns.1 concurrent s).bind fun s => walkNodes_upTo ns hns.2 concurrent s

end

theorem visitAll_failsOnly {Q : Failure ε → Prop} {t : List Instance} {s : σ}
    (h : ∀ before i after s', t = before ++ i :: after → visitAll visit before s = .ok s' →
      FailsOnly Q (visit i s')) : FailsOnly Q (visitAll visit t s) := by
  induction t generalizing s with
  | nil => exact .ok s
  | cons i t ih =>
    refine (h [] i t s rfl rfl).bind fun next hn => ih fun before j after s' hsplit hbefore => ?_
    refine h (i :: before) j after s' (by rw [hsplit]; rfl) ?_
    rw [visitAll_cons, hn, ok_bind, hbefore]

theorem walk_failsOnly {k : Kernel} {s : σ} {Q : Failure ε → Prop} (hoverflow : Q (.fault .overflow))
    (h : ∀ before i after s', k.instances = before ++ i :: after → visitAll visit before s = .ok s' →
      FailsOnly Q (visit i s')) : FailsOnly Q (k.walk visit s) := by
  intro e he
  rcases walkNodes_upTo visit k.body (evaluatesAll k.body []) [] s with hw | ⟨f | e', hf, hw⟩
  · exact visitAll_failsOnly visit h e (hw.symm.trans he)
  · cases hf
    cases hw.symm.trans he
    exact hoverflow
  · cases hf

end Walk

end Kernel

end LoopNest
