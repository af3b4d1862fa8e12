import LoopNest.Proofs.C.Types
import LoopNest.Proofs.C.Walk
import LoopNest.Proofs.Transform.Bindings

namespace LoopNest

open C

def Program.elementType? (p : Program) (buffer : Nat) : Option CType :=
  p.buffers[buffer]?.bind fun b => CType.named? b.dtype.cType

namespace Expr

variable (p : Program)

def type? : Expr → Option CType
  | const _ => some .double
  | iter _ => some .double
  | load a => p.elementType? a.buffer
  | binary op l r =>
    if op = .min ∨ op = .max then some .double
    else do
      let s ← l.type?
      let t ← r.type?
      return s.common t
  | neg e => e.type?
  | call _ _ => some .double

def computedIn : Expr → List (Option CType)
  | const _ => []
  | iter _ => []
  | load _ => []
  | binary op l r => l.computedIn ++ r.computedIn ++ [(binary op l r).type? p]
  | neg e => e.computedIn ++ [e.type? p]
  | call _ e => e.computedIn ++ [some .double]

end Expr

namespace C

def declared? (p : Program) (array : String) : Option CType :=
  (p.buffers.find? fun b => bufferVar b.name == array).bind fun b => CType.named? b.dtype.cType

theorem bufferVar_injective {a b : String} (h : bufferVar a = bufferVar b) : a = b := by
  have hchars := congrArg String.toList h
  simp only [bufferVar, String.toList_append] at hchars
  exact String.toList_injective (List.append_cancel_left hchars)

variable {p : Program} {l : Leaf} {c : Computation} {names : List String}

theorem declared?_bufferVar (hnodup : (p.buffers.map Buffer.name).Nodup) {i : Nat} {b : Buffer}
    (hb : p.buffers[i]? = some b) : declared? p (bufferVar b.name) = p.elementType? i := by
  have hsome : (p.buffers.find? fun x => bufferVar x.name == bufferVar b.name).isSome :=
    List.find?_isSome.2 ⟨b, List.mem_of_getElem? hb, beq_self_eq_true _⟩
  obtain ⟨x, hx⟩ := Option.isSome_iff_exists.1 hsome
  have hname : x.name = b.name := bufferVar_injective (by simpa using List.find?_some hx)
  have hsame : x = b := List.inj_on_of_nodup_map hnodup (List.mem_of_find?_eq_some hx) (List.mem_of_getElem? hb) hname
  rw [declared?, hx, hsame, Program.elementType?, hb]

theorem ofExpr_binary_eq_ok {op : Operator} {lhs rhs : LoopNest.Expr} {e : Expr}
    (h : ofExpr p l (.binary op lhs rhs) = .ok e) :
    ∃ lhs' rhs', ofExpr p l lhs = .ok lhs' ∧ ofExpr p l rhs = .ok rhs' ∧
      ((op = .min ∨ op = .max) ∧ (∃ f, e = .call f [lhs', rhs'] ∧ ∀ {F D : Type} (M : Machine F D) (x y : D),
          libraryCall? M f [x, y] = some (M.double.binary op x y)) ∨
        ¬ (op = .min ∨ op = .max) ∧ 0 < Expr.tightness op.symbol ∧ Expr.tightness op.symbol < 4 ∧
          operator? op.symbol = some op ∧ e = .paren (.binary op.symbol lhs' rhs')) := by
  obtain ⟨lhs', rhs', hl, hr, rfl⟩ := bind₂_eq_ok.1 h
  refine ⟨lhs', rhs', hl, hr, ?_⟩
  cases op with
  | min => exact Or.inl ⟨Or.inl rfl, _, rfl, fun M x y => rfl⟩
  | max => exact Or.inl ⟨Or.inr rfl, _, rfl, fun M x y => rfl⟩
  | add | sub | mul | div => exact Or.inr ⟨by decide, by decide, by decide, rfl, rfl⟩

theorem ofAccess_eq_ok {a : Access} {e : Expr} (h : ofAccess p l a = .ok e) :
    ∃ b parts, p.buffers[a.buffer]? = some b ∧ indexParts p l a.indices b.strides = .ok parts ∧
      e = .subscript (bufferVar b.name) (.sum parts) := by
  rw [ofAccess] at h
  split at h
  · cases h
  · next b hb =>
    obtain ⟨parts, hparts, h⟩ := bind_eq_ok.1 h
    cases h
    exact ⟨b, parts, hb, hparts, rfl⟩

section Types

variable (hnodup : (p.buffers.map Buffer.name).Nodup)
include hnodup

theorem type?_ofExpr {e : LoopNest.Expr} {e' : Expr} (h : ofExpr p l e = .ok e') :
    e'.type? (declared? p) = e.type? p := by
  induction e generalizing e' with
  | const v =>
    cases h
    rfl
  | iter name =>
    obtain ⟨f, -, h⟩ := bind_eq_ok.1 h
    cases h
    rfl
  | load a =>
    obtain ⟨b, parts, hb, -, rfl⟩ := ofAccess_eq_ok h
    exact declared?_bufferVar hnodup hb
  | binary op lhs rhs ihl ihr =>
    obtain ⟨lhs', rhs', hl, hr, ⟨hop, f, rfl, -⟩ | ⟨hop, -, -, -, rfl⟩⟩ := ofExpr_binary_eq_ok h
    · rw [LoopNest.Expr.type?, if_pos hop]
      rfl
    · rw [LoopNest.Expr.type?, if_neg hop, ← ihl hl, ← ihr hr]
      rfl
  | neg e ih =>
    obtain ⟨x, hx, h⟩ := bind_eq_ok.1 h
    cases h
    rw [Expr.type?, Expr.type?, LoopNest.Expr.type?, ih hx]
  | call f e ih =>
    obtain ⟨x, -, h⟩ := bind_eq_ok.1 h
    cases h
    rfl

theorem computedIn_ofExpr {e : LoopNest.Expr} {e' : Expr} (h : ofExpr p l e = .ok e') :
    e'.computedIn (declared? p) = e.computedIn p := by
  induction e generalizing e' with
  | const v =>
    cases h
    rfl
  | iter name =>
    obtain ⟨f, -, h⟩ := bind_eq_ok.1 h
    cases h
    rfl
  | load a =>
    obtain ⟨b, parts, -, -, rfl⟩ := ofAccess_eq_ok h
    rfl
  | binary op lhs rhs ihl ihr =>
    have htype := type?_ofExpr hnodup h
    obtain ⟨lhs', rhs', hl, hr, ⟨hop, f, rfl, -⟩ | ⟨hop, -, -, -, rfl⟩⟩ := ofExpr_binary_eq_ok h
    · simp only [Expr.computedIn, Expr.computedInAll, List.append_nil, LoopNest.Expr.computedIn, ihl hl, ihr hr,
        ← htype]
      rfl
    · simp only [Expr.computedIn, LoopNest.Expr.computedIn, ihl hl, ihr hr, ← htype]
      rfl
  | neg e ih =>
    obtain ⟨x, hx, h⟩ := bind_eq_ok.1 h
    cases h
    rw [Expr.computedIn, Expr.computedIn, LoopNest.Expr.computedIn, ih hx, type?_ofExpr hnodup hx]
  | call f e ih =>
    obtain ⟨x, hx, h⟩ := bind_eq_ok.1 h
    cases h
    simp only [Expr.computedIn, Expr.computedInAll, List.append_nil, LoopNest.Expr.computedIn, ih hx]

end Types

section Grouping

theorem level_ofAffine {f : Affine} {a : String} (hf : f.Grows a) : (ofAffine f).level = 5 := by
  obtain ⟨_ | ⟨t, _ | ⟨u, ts⟩⟩, constant⟩ := f
  · exact absurd hf.mem_atoms List.not_mem_nil
  · have hatom : a = t.atom := by simpa [Affine.atoms] using hf.mem_atoms
    have hcoeff : t.coeff = 1 := by
      have hvalue := hf fun _ => 0
      simp only [Affine.value, Affine.termsValue, hatom, Function.update_self] at hvalue
      omega
    by_cases hconstant : constant = 0
    · simp [ofAffine, ofTerm, hconstant, hcoeff, Expr.level]
    · simp [ofAffine, hconstant, Expr.level]
  · have hparts {parts : List Expr} : (grouped (ofTerm t :: ofTerm u :: parts)).level = 5 := rfl
    by_cases hconstant : constant = 0
    · simpa [ofAffine, hconstant, grouped] using hparts
    · simpa [ofAffine, hconstant, grouped] using hparts

variable (hl : l.Scoped p names) (hc : p.computations[l.computation]? = some c)
include hl hc

theorem grows_inLoops (hcounted : ∀ f ∈ l.bindings, ∃ a, f.Grows a) {name : String} (hname : name ∈ c.iterators)
    {f : Affine} (h : l.inLoops p (.var name) = .ok f) : ∃ a, f.Grows a := by
  obtain ⟨b, hb, hfind⟩ := exists_binding hl hc hname
  obtain ⟨a, ha⟩ := hcounted b hb
  simp only [Leaf.inLoops, hc] at h
  refine ⟨a, (Affine.grows_var name).bindVars h ?_ fun x hx hne => absurd (Affine.mem_atoms_var.1 hx) hne⟩
  rw [hfind]
  exact ha

theorem grouped_ofExpr (hcounted : ∀ f ∈ l.bindings, ∃ a, f.Grows a) {e : LoopNest.Expr}
    (he : e.WellFormed p.buffers c.iterators) {e' : Expr} (h : ofExpr p l e = .ok e') :
    e'.Grouped ∧ 4 ≤ e'.level := by
  induction e generalizing e' with
  | const v =>
    cases h
    exact ⟨trivial, Nat.le_refl 4⟩
  | iter name =>
    obtain ⟨f, hf, h⟩ := bind_eq_ok.1 h
    cases h
    have hname := he.iterators name List.mem_cons_self
    obtain ⟨a, ha⟩ := grows_inLoops hl hc hcounted hname hf
    -- the operand of the cast counts up with a loop, so it is a variable or stands in parentheses
    have hform := (composes_grouped names).ofAffine (over_inLoops hl hc (Affine.over_var hname) hf)
    exact ⟨⟨by rw [level_ofAffine ha]; decide, hform.1⟩, Nat.le_refl 4⟩
  | load a =>
    obtain ⟨b, index, -, rfl, hindex, -⟩ :=
      (composes_grouped names).ofAccess hl hc (he.loads a List.mem_cons_self) h
    exact ⟨hindex, Nat.le_succ 4⟩
  | binary op lhs rhs ihl ihr =>
    obtain ⟨lhs', rhs', hl', hr', ⟨-, f, rfl, -⟩ | ⟨-, hpos, hlt, -, rfl⟩⟩ := ofExpr_binary_eq_ok h
    · exact ⟨⟨(ihl he.left hl').1, (ihr he.right hr').1, trivial⟩, Nat.le_succ 4⟩
    · obtain ⟨hgl, hll⟩ := ihl he.left hl'
      obtain ⟨hgr, hlr⟩ := ihr he.right hr'
      exact ⟨⟨hpos, by omega, by omega, hgl, hgr⟩, Nat.le_succ 4⟩
  | neg e ih =>
    obtain ⟨x, hx, h⟩ := bind_eq_ok.1 h
    cases h
    obtain ⟨hgrouped, hlevel⟩ := ih ⟨he.loads, he.iterators⟩ hx
    exact ⟨⟨hlevel, hgrouped⟩, Nat.le_succ 4⟩
  | call f e ih =>
    obtain ⟨x, hx, h⟩ := bind_eq_ok.1 h
    cases h
    exact ⟨⟨(ih ⟨he.loads, he.iterators⟩ hx).1, trivial⟩, Nat.le_succ 4⟩

end Grouping

section Values

variable {F D : Type} {M : Machine F D} {memory : Memory F D}

theorem Value.toDouble_of_integer? {v : Value F D} {n : Int} (h : v.integer? = some n) :
    v.toDouble M = M.double.ofInt n := by
  cases v with
  | int m | long m =>
    cases h
    rfl
  | float x | double x => cases h

theorem Value.toDouble_neg {v : Value F D} (h : v.type = .double) :
    (v.neg M).toDouble M = M.double.neg (v.toDouble M) := by
  cases v with
  | double x => rfl
  | int n | long n | float x => cases h

def Supplies (p : Program) (c : Computation) (l : Leaf) (M : Machine F D) (memory : Memory F D) (env : Valuation)
    (loaded : Nat → D) (next : Nat) (as : List Access) : Prop :=
  ∀ i a b, as[i]? = some a → p.buffers[a.buffer]? = some b →
    ∃ v, memory (bufferVar b.name) (flatIndex c l b a env) = some v ∧ v.toDouble M = loaded (next + i)

theorem Supplies.append {env : Valuation} {loaded : Nat → D} {next : Nat} {as bs : List Access}
    (h : Supplies p c l M memory env loaded next (as ++ bs)) :
    Supplies p c l M memory env loaded next as ∧ Supplies p c l M memory env loaded (next + as.length) bs := by
  refine ⟨fun i a b ha hb => h i a b ?_ hb, fun i a b ha hb => ?_⟩
  · rw [List.getElem?_append_left (List.getElem?_eq_some_iff.1 ha).1, ha]
  · rw [Nat.add_assoc]
    refine h (as.length + i) a b ?_ hb
    rw [List.getElem?_append_right (Nat.le_add_right _ _), Nat.add_sub_cancel_left, ha]

theorem eval_ofExpr (hl : l.Scoped p names) (hc : p.computations[l.computation]? = some c)
    (hmemory : memory.Respects (declared? p)) {scope : List (String × Int)} {env : Valuation}
    (hscope : Binds scope names env) {loaded : Nat → D} {e : LoopNest.Expr}
    (he : e.WellFormed p.buffers c.iterators) {e' : Expr} (h : ofExpr p l e = .ok e')
    (hdoubles : ∀ t ∈ e'.computedIn (declared? p), t = some .double) {next : Nat}
    (hloads : Supplies p c l M memory env loaded next e.loads) :
    ∃ v, e'.eval M scope memory = some v ∧
      v.toDouble M = e.valueFrom M.double (pointEnv c.iterators (pointOf l env)) loaded next := by
  induction e generalizing e' next with
  | const v =>
    cases h
    exact ⟨_, rfl, rfl⟩
  | iter name =>
    obtain ⟨f, hf, h⟩ := bind_eq_ok.1 h
    cases h
    have hname := Affine.over_var (he.iterators name List.mem_cons_self)
    have hform := (composes_yields M memory names).ofAffine (over_inLoops hl hc hname hf)
    obtain ⟨v, hv, hinteger⟩ := hform scope env hscope
    -- up to the cast everything is an integer
    refine ⟨_, Expr.eval_cast hv, ?_⟩
    rw [Value.toDouble, Value.toDouble_of_integer? hinteger, value_inLoops hl hc hname hf, Affine.value_var]
    rfl
  | load a =>
    obtain ⟨b, index, hb, rfl, hindex⟩ :=
      (composes_yields M memory names).ofAccess hl hc (he.loads a List.mem_cons_self) h
    obtain ⟨n, hn, hinteger⟩ := hindex scope env hscope
    obtain ⟨v, hv, hvalue⟩ := hloads 0 a b rfl hb
    exact ⟨v, (Expr.eval_subscript hn hinteger).trans hv, hvalue⟩
  | binary op lhs rhs ihl ihr =>
    obtain ⟨hleft, hright⟩ := hloads.append
    obtain ⟨lhs', rhs', hl', hr', ⟨-, f, rfl, hcall⟩ | ⟨-, -, -, hsymbol, rfl⟩⟩ := ofExpr_binary_eq_ok h
    · simp only [Expr.computedIn, Expr.computedInAll, List.append_nil, List.forall_mem_append] at hdoubles
      obtain ⟨a, ha, hx⟩ := ihl he.left hl' hdoubles.1.1 hleft
      obtain ⟨b, hb, hy⟩ := ihr he.right hr' hdoubles.1.2 hright
      refine ⟨_, Expr.eval_call (Expr.evalAll_pair ha hb) (hcall M _ _), ?_⟩
      rw [Value.toDouble, hx, hy]
      rfl
    · simp only [Expr.computedIn, List.forall_mem_append, List.forall_mem_singleton] at hdoubles
      obtain ⟨⟨hdoublesl, hdoublesr⟩, htype⟩ := hdoubles
      obtain ⟨a, ha, hx⟩ := ihl he.left hl' hdoublesl hleft
      obtain ⟨b, hb, hy⟩ := ihr he.right hr' hdoublesr hright
      rw [Expr.type?, Expr.type?_of_eval hmemory lhs' ha, Expr.type?_of_eval hmemory rhs' hb] at htype
      -- the usual conversions take both operands to double
      have hcommon : a.type.common b.type = .double := Option.some.inj htype
      refine ⟨_, (Expr.eval_binary hsymbol ha hb).trans (Value.binary_of_double M hcommon), ?_⟩
      rw [Value.toDouble, hx, hy]
      rfl
  | neg e ih =>
    obtain ⟨x, hx, h⟩ := bind_eq_ok.1 h
    cases h
    simp only [Expr.computedIn, List.forall_mem_append, List.forall_mem_singleton] at hdoubles
    obtain ⟨v, hv, hvalue⟩ := ih ⟨he.loads, he.iterators⟩ hx hdoubles.1 hloads
    have htype := hdoubles.2
    rw [Expr.type?_of_eval hmemory x hv] at htype
    refine ⟨v.neg M, by rw [Expr.eval, Expr.eval, hv, Option.map_some], ?_⟩
    rw [Value.toDouble_neg (Option.some.inj htype), hvalue]
    rfl
  | call f e ih =>
    obtain ⟨x, hx, h⟩ := bind_eq_ok.1 h
    cases h
    simp only [Expr.computedIn, Expr.computedInAll, List.append_nil, List.forall_mem_append] at hdoubles
    obtain ⟨v, hv, hvalue⟩ := ih ⟨he.loads, he.iterators⟩ hx hdoubles.1 hloads
    have hcall (y : D) : libraryCall? M f.name [y] = some (M.double.call f y) := by cases f <;> rfl
    refine ⟨_, Expr.eval_call (Expr.evalAll_singleton hv) (hcall _), ?_⟩
    rw [Value.toDouble, hvalue]
    rfl

end Values

theorem computedIn_of_float64 (hfloats : ∀ b ∈ p.buffers, b.dtype = .float64) {e : LoopNest.Expr}
    (he : e.WellFormed p.buffers names) : e.type? p = some .double ∧ ∀ t ∈ e.computedIn p, t = some .double := by
  induction e with
  | const v | iter name => exact ⟨rfl, fun t ht => absurd ht List.not_mem_nil⟩
  | load a =>
    obtain ⟨b, hb, -⟩ := (he.loads a List.mem_cons_self).buffer
    refine ⟨?_, fun t ht => absurd ht List.not_mem_nil⟩
    rw [LoopNest.Expr.type?, Program.elementType?, hb, Option.bind_some, hfloats b (List.mem_of_getElem? hb)]
    rfl
  | binary op lhs rhs ihl ihr =>
    obtain ⟨htypel, hl⟩ := ihl he.left
    obtain ⟨htyper, hr⟩ := ihr he.right
    have htype : (LoopNest.Expr.binary op lhs rhs).type? p = some .double := by
      rw [LoopNest.Expr.type?, htypel, htyper]
      split_ifs <;> rfl
    exact ⟨htype, List.forall_mem_append.2 ⟨List.forall_mem_append.2 ⟨hl, hr⟩, List.forall_mem_singleton.2 htype⟩⟩
  | neg e ih =>
    obtain ⟨htype, hcomputed⟩ := ih ⟨he.loads, he.iterators⟩
    exact ⟨htype, List.forall_mem_append.2 ⟨hcomputed, List.forall_mem_singleton.2 htype⟩⟩
  | call f e ih =>
    obtain ⟨-, hcomputed⟩ := ih ⟨he.loads, he.iterators⟩
    exact ⟨rfl, List.forall_mem_append.2 ⟨hcomputed, List.forall_mem_singleton.2 rfl⟩⟩

theorem ofExpr_of_assignment (hc : p.computations[l.computation]? = some c) {target value : Expr}
    (h : assignment p l = .ok (.assign target value)) : ofExpr p l c.expr = .ok value := by
  simp only [assignment, hc] at h
  obtain ⟨target', value', -, hvalue, hsame⟩ := bind₂_eq_ok.1 h
  cases hsame
  exact hvalue

theorem scoped_of_leafStack {description : Description} (hp : description.build = .ok p) {n : Nest}
    (hn : n.Reachable (Context.ofProgram p)) {stack : List Header} (hl : (stack, l) ∈ Node.leafStacksAll n.roots) :
    l.Scoped p (scopeOf stack) ∧ ∀ f ∈ l.bindings, ∃ a, f.Grows a := by
  have hwf := Description.wellFormed_of_build hp
  have hreshaped := Nest.reshaped_of_reachable hn
  have hscoped := Node.scopedAll_of_stack n.roots (Node.TidyAll.scoped n.roots (hreshaped.sound hwf).tidy) hl
  have hmem : l ∈ Node.leavesAll n.roots := by
    rw [← Node.leafStacksAll_map_snd]
    exact List.mem_map_of_mem (f := Prod.snd) hl
  rw [List.append_nil] at hscoped
  exact ⟨hscoped, hreshaped.counted hwf l hmem⟩

end C

end LoopNest
