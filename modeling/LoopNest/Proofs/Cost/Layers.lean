import LoopNest.Cost.Estimate
import LoopNest.Proofs.Affine.Bounds
import LoopNest.Proofs.Cost.Rectangles

namespace LoopNest.Cost

open Node

section Definitions

def layersOf : Layers → List Header → Evaluated Layers
  | fs, [] => .ok fs
  | fs, h :: hs => do
    let f ← layer fs h
    layersOf (f :: fs) hs

def Layer.exactTrips (f : Layer) : ℚ := max ((f.doubled : ℚ) / 2) 0

def exactProduct (fs : Layers) : ℚ := (fs.map Layer.exactTrips).prod

end Definitions

section Nodes

variable {m : Machine} {p : Program}

mutual

theorem charged_of_node (n : Node) {fs : Layers} {x : Float} {costs : List Float}
    (h : node m p fs n = .ok (x, costs)) : ∀ t ∈ n.leafStacks,
      ∃ gs c, layersOf fs t.1 = .ok gs ∧ costOfLeaf m p gs t.2 = .ok c ∧ c ∈ costs := by
  cases n with
  | leaf l =>
    intro t ht
    rw [List.mem_singleton.1 ht]
    simp only [node, bind_eq_ok, lift_eq_ok, pure_eq_ok] at h
    obtain ⟨c, hc, h⟩ := h
    obtain ⟨rfl, rfl⟩ := Prod.mk.inj h
    exact ⟨fs, c, rfl, hc, List.mem_cons_self⟩
  | loop hd body =>
    intro t ht
    obtain ⟨s, hs, rfl⟩ := mem_leafStacks_loop.1 ht
    rw [node] at h
    obtain ⟨f, hf, h⟩ := bind_eq_ok.1 h
    obtain ⟨⟨total, more⟩, hbody, h⟩ := bind_eq_ok.1 h
    cases h
    obtain ⟨gs, c, hgs, hc, hmem⟩ := charged_of_nodes body hbody s hs
    exact ⟨gs, c, bind_eq_ok.2 ⟨f, hf, hgs⟩, hc, List.mem_cons_of_mem _ hmem⟩

theorem charged_of_nodes (ns : List Node) {fs : Layers} {total x : Float} {costs : List Float}
    (h : nodes m p fs total ns = .ok (x, costs)) : ∀ t ∈ leafStacksAll ns,
      ∃ gs c, layersOf fs t.1 = .ok gs ∧ costOfLeaf m p gs t.2 = .ok c ∧ c ∈ costs := by
  cases ns with
  | nil => exact fun t ht => absurd ht List.not_mem_nil
  | cons n ns =>
    rw [nodes] at h
    obtain ⟨⟨c, first⟩, hn, h⟩ := bind_eq_ok.1 h
    obtain ⟨⟨x', more⟩, hns, h⟩ := bind_eq_ok.1 h
    cases h
    intro t ht
    rcases List.mem_append.1 ht with ht | ht
    · obtain ⟨gs, c', hgs, hc', hmem⟩ := charged_of_node n hn t ht
      exact ⟨gs, c', hgs, hc', List.mem_append_left _ hmem⟩
    · obtain ⟨gs, c', hgs, hc', hmem⟩ := charged_of_nodes ns hns t ht
      exact ⟨gs, c', hgs, hc', List.mem_append_right _ hmem⟩

end

end Nodes

section Ranges

structure Layer.Spans (f : Layer) (h : Header) : Prop where
  dim : f.dim = h.dim
  low : f.low = h.lower.constant
  high : f.high = h.upper.constant - 1

variable {fs : Layers} {hs ks : List Header} {h : Header}

theorem rangeOf_eq_some {a : String} {l u : Int} (hspans : List.Forall₂ Layer.Spans fs ks)
    (hrange : rangeOf fs a = some (l, u)) :
    ∃ x ∈ ks, x.dim = a ∧ l = x.lower.constant ∧ u = x.upper.constant - 1 := by
  obtain ⟨f, hf, hpair⟩ := Option.map_eq_some_iff.1 hrange
  cases hpair
  obtain ⟨x, hx, hspan⟩ := exists_of_forall₂ hspans (List.mem_of_find?_eq_some hf)
  have hdim : f.dim = a := by simpa using List.find?_some hf
  exact ⟨x, hx, hspan.dim.symm.trans hdim, hspan.low, hspan.high⟩

theorem exists_rangeOf {names : List String} (hdims : fs.map Layer.dim = names) :
    ∀ a ∈ names, ∃ b, rangeOf fs a = some b := by
  intro a ha
  obtain ⟨f, hf, hdim⟩ := List.mem_map.1 (hdims ▸ ha)
  have hfound : (fs.find? fun f => f.dim == a).isSome := by
    apply List.find?_isSome.2
    exact ⟨f, hf, beq_iff_eq.2 hdim⟩
  obtain ⟨g, hg⟩ := Option.isSome_iff_exists.1 hfound
  exact ⟨_, by rw [rangeOf, hg]; rfl⟩

theorem dims_of_spans (hspans : List.Forall₂ Layer.Spans fs ks) : fs.map Layer.dim = ks.map Header.dim := by
  induction hspans with
  | nil => rfl
  | cons h _ ih => rw [List.map_cons, List.map_cons, h.dim, ih]

theorem bounds_of_stack (hspans : List.Forall₂ Layer.Spans fs ks) (hks : ks ⊆ hs) (hfixed : ∀ x ∈ hs, x.Fixed)
    {first last : Valuation} (hfirst : Starts hs first) (hlast : Ends hs last) {f : Affine} (hf : f.IsCanonical)
    (hfalls : ∀ e e' : Valuation, (∀ x ∈ hs, e x.dim ≤ e' x.dim) → f.value e' ≤ f.value e) {lo hi : Int}
    (h : f.bounds (rangeOf fs) = .ok (some (lo, hi))) : lo = f.value last ∧ hi = f.value first := by
  -- a name with a range is that of a loop of the stack, which runs from one end of the range to the other
  have hbetween {a : String} {l u : Int} (hr : rangeOf fs a = some (l, u)) :
      first a = l ∧ last a = u ∧ l ≤ u := by
    obtain ⟨x, hx, rfl, rfl, rfl⟩ := rangeOf_eq_some hspans hr
    have hlt := (hfixed x (hks hx)).nonempty
    rw [hfirst x (hks hx), hlast x (hks hx)]
    omega
  apply Affine.bounds_of_falling hf _ _ _ _ h
  · intro a l u hr
    have := hbetween hr
    omega
  · intro a l u hr
    have := hbetween hr
    omega
  · rintro e ⟨hwithin, hsame⟩
    apply hfalls
    intro x _
    cases hr : rangeOf fs x.dim with
    | none => rw [hsame _ hr]
    | some b =>
      have := hbetween hr
      have := hwithin _ _ _ hr
      omega
  · rintro e ⟨hwithin, hsame⟩
    apply hfalls
    intro x _
    cases hr : rangeOf fs x.dim with
    | none => rw [hsame _ hr]
    | some b =>
      have := hbetween hr
      have := hwithin _ _ _ hr
      omega

end Ranges

section Layers

variable {fs : Layers} {hs ks : List Header} {h : Header} {instances : Nat}

theorem boundsOf_eq_ok {dim : String} {f : Affine} {b : Int × Int} (h : boundsOf fs dim f = .ok b) :
    f.bounds (rangeOf fs) = .ok (some b) := by
  simp only [boundsOf, bind_eq_ok, lift_eq_ok] at h
  obtain ⟨o, ho, h⟩ := h
  split at h
  · cases h
    exact ho
  · cases h

theorem boundsOf_failsOnly {names : List String} (hdims : fs.map Layer.dim = names) {f : Affine} (hf : f.Over names)
    (dim : String) : FailsOnlyBy (.fault .overflow) (boundsOf fs dim f) := by
  refine (Affine.bounds_failsOnly f _).lift.bind fun o ho => ?_
  obtain ⟨b, rfl⟩ := Affine.bounds_isSome hf (exists_rangeOf hdims) (lift_eq_ok.1 ho)
  exact .ok b

theorem layer_failsOnly {names : List String} (hdims : fs.map Layer.dim = names) (ht : h.Tidy names) :
    FailsOnlyBy (.fault .overflow) (layer fs h) := by
  have hupper : FailsOnlyBy (.fault .overflow) (upperBounds fs h) := by
    refine (boundsOf_failsOnly hdims (ht.inScope _ Header.upper_mem_limits) _).bind fun _ _ => ?_
    cases hc : h.clamp with
    | none => exact .ok _
    | some c =>
      exact (boundsOf_failsOnly hdims (ht.inScope _ (Header.clamp_mem_limits hc)) _).bind fun _ _ => .ok _
  refine (boundsOf_failsOnly hdims (ht.inScope _ Header.lower_mem_limits) _).bind fun _ _ => ?_
  refine hupper.bind fun _ _ => ?_
  exact (Word.checked_failsOnly _).lift.bind fun _ _ => (Word.checked_failsOnly _).lift.bind fun _ _ =>
    (Word.checked_failsOnly _).lift.bind fun _ _ => (Word.checked_failsOnly _).lift.bind fun _ _ => .ok _

section Bounds

variable (ha : Accounted hs instances) (hspans : List.Forall₂ Layer.Spans fs ks) (hks : ks ⊆ hs) (hh : h ∈ hs)
  {names : List String} (ht : h.Tidy names) {first last : Valuation} (hfirst : Starts hs first) (hlast : Ends hs last)
  {dim : String} {b : Int × Int}
include ha hspans hks hh ht hfirst hlast

theorem boundsOf_lower (hb : boundsOf fs dim h.lower = .ok b) : b.1 = h.lower.constant ∧ b.2 = h.lower.constant := by
  have hfixed := ha.fixed h hh
  have hbounds := bounds_of_stack hspans hks ha.fixed hfirst hlast (ht.canonical _ Header.lower_mem_limits)
    (fun e e' _ => by rw [hfixed.lower, hfixed.lower]) (boundsOf_eq_ok hb)
  rwa [hfixed.lower, hfixed.lower] at hbounds

theorem boundsOf_upper (hb : boundsOf fs dim h.upper = .ok b) : b.1 = h.upper.constant ∧ b.2 = h.upper.constant := by
  have hfixed := ha.fixed h hh
  have hbounds := bounds_of_stack hspans hks ha.fixed hfirst hlast (ht.canonical _ Header.upper_mem_limits)
    (fun e e' _ => by rw [hfixed.upper, hfixed.upper]) (boundsOf_eq_ok hb)
  rwa [hfixed.upper, hfixed.upper] at hbounds

theorem upperBounds_eq_ok (hb : upperBounds fs h = .ok b) : b.1 = h.top last ∧ b.2 = h.upper.constant := by
  have hfixed := ha.fixed h hh
  obtain ⟨whole, hwhole, hb⟩ := bind_eq_ok.1 hb
  have hbounds := boundsOf_upper ha hspans hks hh ht hfirst hlast hwhole
  cases hc : h.clamp with
  | none =>
    rw [hc] at hb
    cases hb
    simp only [Header.top, hc, hfixed.upper]
    exact hbounds
  | some c =>
    have hclamps := ha.clamps h hh c hc
    rw [hc] at hb
    obtain ⟨clamp, hclamp, hb⟩ := bind_eq_ok.1 hb
    cases hb
    have hcut := bounds_of_stack hspans hks ha.fixed hfirst hlast (ht.canonical _ (Header.clamp_mem_limits hc))
      hclamps.falls (boundsOf_eq_ok hclamp)
    have hfull := hclamps.starts first hfirst
    simp only [Header.top, hc, hfixed.upper]
    omega

end Bounds

theorem layer_eq_ok (ha : Accounted hs instances) (hdims : (hs.map Header.dim).Nodup)
    (hspans : List.Forall₂ Layer.Spans fs ks) (hks : ks ⊆ hs) (hh : h ∈ hs) {names : List String} (ht : h.Tidy names)
    {f : Layer} (hf : layer fs h = .ok f) : f.Spans h ∧ ∀ e, Ends hs e → f.exactTrips = h.mean e := by
  have hlt := (ha.fixed h hh).nonempty
  -- the lower end of a bound is reached when all loops stand at their beginnings
  obtain ⟨first, hfirst⟩ := exists_valuation hdims fun x => x.lower.constant
  obtain ⟨lower, hlower, hf⟩ := bind_eq_ok.1 hf
  obtain ⟨upper, hupper, hf⟩ := bind_eq_ok.1 hf
  have hlowers {last : Valuation} (hlast : Ends hs last) : lower.1 = h.lower.constant ∧ lower.2 = h.lower.constant :=
    boundsOf_lower ha hspans hks hh ht hfirst hlast hlower
  have huppers {last : Valuation} (hlast : Ends hs last) : upper.1 = h.top last ∧ upper.2 = h.upper.constant :=
    upperBounds_eq_ok ha hspans hks hh ht hfirst hlast hupper
  simp only [bind_eq_ok, lift_eq_ok] at hf
  obtain ⟨most, hmost, least, hleast, doubled, hdoubled, final, hfinal, hf⟩ := hf
  cases hf
  rw [Word.sub_eq_ok] at hmost hleast hfinal
  rw [Word.add_eq_ok] at hdoubled
  constructor
  · obtain ⟨last, hlast⟩ := exists_valuation hdims fun x => x.upper.constant - 1
    have hstart := hlowers hlast
    have hend := huppers hlast
    constructor
    · rfl
    · exact hstart.1
    · change max final lower.1 = _
      omega
  · intro last hlast
    have hstart := hlowers hlast
    have hend := huppers hlast
    have hsum : doubled = h.extent + (h.top last - h.lower.constant) := by
      unfold Header.extent
      omega
    rw [Layer.exactTrips, Header.mean, hsum]

theorem layersOf_spec {done rest : List Header} (hspans : List.Forall₂ Layer.Spans fs done)
    (ha : Accounted (done.reverse ++ rest) instances) (hdims : ((done.reverse ++ rest).map Header.dim).Nodup)
    (ht : HeadersTidy (done.map Header.dim) rest) : FailsOnlyBy (.fault .overflow) (layersOf fs rest) ∧
      ∀ gs, layersOf fs rest = .ok gs → ∀ e, Ends (done.reverse ++ rest) e →
        exactProduct gs = exactProduct fs * charge rest e := by
  induction rest generalizing fs done with
  | nil =>
    refine ⟨.ok _, fun gs hgs e _ => ?_⟩
    cases hgs
    simp [charge]
  | cons h rest ih =>
    have hstack : done.reverse ++ h :: rest = (h :: done).reverse ++ rest := by simp
    have hlayer {f : Layer} (hf : layer fs h = .ok f) := layer_eq_ok ha hdims hspans
      (fun x hx => List.mem_append_left _ (List.mem_reverse.2 hx))
      (List.mem_append_right _ List.mem_cons_self) ht.1 hf
    rw [hstack] at ha hdims hlayer ⊢
    have hrest {f : Layer} (hf : layer fs h = .ok f) := ih (.cons (hlayer hf).1 hspans) ha hdims ht.2
    constructor
    · exact (layer_failsOnly (dims_of_spans hspans) ht.1).bind fun f hf => (hrest hf).1
    · intro gs hgs e he
      obtain ⟨f, hf, hgs⟩ := bind_eq_ok.1 hgs
      rw [(hrest hf).2 gs hgs e he, exactProduct, exactProduct, List.map_cons, List.prod_cons, (hlayer hf).2 e he,
        charge, charge, List.map_cons, List.prod_cons]
      ring

end Layers

end LoopNest.Cost
