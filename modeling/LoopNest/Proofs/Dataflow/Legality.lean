import LoopNest.Description.Catalogue
import LoopNest.Proofs.Dataflow.Decidable

namespace LoopNest

open LoopNest.Flow Kernel

namespace Program

def initialVisits (p : Program) : Numbered (List Visit) := do
  let roots ← p.nesting
  let k ← Kernel.ofTree p roots
  k.visits

/-- The initial tree runs no more instances than there are numbers for them in 32 bits, the one that stands
for no writer left out. -/
def FewInstances (p : Program) : Prop :=
  ∀ roots k t, p.nesting = .ok roots → Kernel.ofTree p roots = .ok k → k.trace = .ok t →
    t.length ≤ 4294967295

variable {p : Program}

theorem initialVisits_eq_ok {initial : List Visit} : p.initialVisits = .ok initial ↔
    ∃ roots k, p.nesting = .ok roots ∧ Kernel.ofTree p roots = .ok k ∧ k.visits = .ok initial := by
  simp only [initialVisits, bind_eq_ok, lift_eq_ok]
  constructor
  · rintro ⟨roots, hn, k, hk, hv⟩
    exact ⟨roots, k, hn, hk, hv⟩
  · rintro ⟨roots, k, hn, hk, hv⟩
    exact ⟨roots, hn, k, hk, hv⟩

theorem FewInstances.length_le (h : p.FewInstances) {initial : List Visit}
    (hi : p.initialVisits = .ok initial) : initial.length ≤ 4294967295 := by
  obtain ⟨roots, k, hn, hk, hv⟩ := initialVisits_eq_ok.1 hi
  obtain ⟨t, ht, hv⟩ := bind_eq_ok.1 hv
  rw [Instance.traverses_visits.length_eq hv]
  exact h roots k t hn hk ht

theorem fewInstances_of_visits {initial : List Visit} (hi : p.initialVisits = .ok initial)
    (hlength : initial.length ≤ 4294967295) : p.FewInstances := by
  obtain ⟨roots, k, hn, hk, hv⟩ := initialVisits_eq_ok.1 hi
  obtain ⟨t, ht, hv⟩ := bind_eq_ok.1 hv
  intro roots' k' t' hn' hk' ht'
  cases hn.symm.trans hn'
  cases hk.symm.trans hk'
  cases ht.symm.trans ht'
  rwa [← Instance.traverses_visits.length_eq hv]

theorem obeys_of_initialVisits {initial : List Visit} (hi : p.initialVisits = .ok initial) {v : Visit}
    (hv : v ∈ initial) : v.Obeys p := by
  obtain ⟨roots, k, -, hk, hvisits⟩ := initialVisits_eq_ok.1 hi
  exact obeys_of_visits hk hvisits hv

end Program

namespace Dataflow

variable {p : Program} {d : Dataflow}

theorem records_of_program (hp : p.WellFormed) (hfew : p.FewInstances) (hd : ofProgram p = .ok d) :
    ∃ initial, p.initialVisits = .ok initial ∧ Records p initial initial d := by
  simp only [ofProgram, bind_eq_ok, lift_eq_ok, Outcome.mapRefusal_eq_ok] at hd
  obtain ⟨roots, hn, k, hk, hd⟩ := hd
  obtain ⟨initial, hv, hrecords⟩ := records_of_kernel hp hk hd
  have hi := Program.initialVisits_eq_ok.2 ⟨roots, k, hn, hk, hv⟩
  exact ⟨initial, hi, hrecords (hfew.length_le hi)⟩

theorem exists_ofProgram (hfew : p.FewInstances) {initial : List Visit} (hi : p.initialVisits = .ok initial)
    (hdistinct : (initial.map Visit.id).Nodup) (hin : ∀ v ∈ initial, ∀ a ∈ v.locations, Inside p a) :
    ∃ d, ofProgram p = .ok d := by
  have hlen := hfew.length_le hi
  obtain ⟨roots, k, hn, hk, hv⟩ := Program.initialVisits_eq_ok.1 hi
  obtain ⟨d, hd⟩ := exists_record_of_kernel hv hlen hdistinct hin
  refine ⟨d, ?_⟩
  simp only [ofProgram, bind_eq_ok, lift_eq_ok, Outcome.mapRefusal_eq_ok]
  exact ⟨roots, hn, k, hk, hd⟩

theorem faithful_of_check (hp : p.WellFormed) (hfew : p.FewInstances) (hd : ofProgram p = .ok d)
    {roots : List Node} {k : Kernel} (hk : Kernel.ofTree p roots = .ok k) (h : d.check p k = .ok ()) :
    ∃ initial vs, p.initialVisits = .ok initial ∧ k.visits = .ok vs ∧ Faithful p initial vs := by
  obtain ⟨initial, hi, hrecords⟩ := records_of_program hp hfew hd
  obtain ⟨vs, hv, hfaithful⟩ := (check_eq_ok_iff hrecords hp
    (fun v hv => Program.obeys_of_initialVisits hi hv) (hfew.length_le hi) hk).1 h
  exact ⟨initial, vs, hi, hv, hfaithful⟩

theorem check_of_faithful (hp : p.WellFormed) (hfew : p.FewInstances) (hd : ofProgram p = .ok d)
    {roots : List Node} {k : Kernel} (hk : Kernel.ofTree p roots = .ok k) {initial vs : List Visit}
    (hi : p.initialVisits = .ok initial) (hv : k.visits = .ok vs) (h : Faithful p initial vs) :
    d.check p k = .ok () := by
  obtain ⟨initial', hi', hrecords⟩ := records_of_program hp hfew hd
  cases hi.symm.trans hi'
  exact (check_eq_ok_iff hrecords hp (fun v hv => Program.obeys_of_initialVisits hi hv)
    (hfew.length_le hi) hk).2 ⟨vs, hv, h⟩

end Dataflow

namespace Context

variable {p : Program} {roots : List Node}

theorem checkLegal_of_tree {d : Dataflow} {k : Kernel} (hd : Dataflow.ofProgram p = .ok d)
    (hk : Kernel.ofTree p roots = .ok k) : (ofProgram p).checkLegal roots = d.check p k := by
  have hrecord : Dataflow.ofProgram (ofProgram p).program = .ok d := hd
  have htree : Kernel.ofTree (ofProgram p).program roots = .ok k := hk
  rw [checkLegal, (ofProgram p).recorded_get, hrecord, ok_bind, htree, Outcome.mapRefusal_ok, ok_bind]
  rfl

theorem checkLegal_eq_ok : (ofProgram p).checkLegal roots = .ok () ↔
    ∃ d k, Dataflow.ofProgram p = .ok d ∧ Kernel.ofTree p roots = .ok k ∧ d.check p k = .ok () := by
  simp only [checkLegal, (ofProgram p).recorded_get, bind_eq_ok, Outcome.mapRefusal_eq_ok]
  constructor
  · rintro ⟨d, hd, k, hk, h⟩
    exact ⟨d, k, hd, hk, h⟩
  · rintro ⟨d, k, hd, hk, h⟩
    exact ⟨d, hd, k, hk, h⟩

theorem checkLegal_of_faithful (hp : p.WellFormed) (hfew : p.FewInstances) {initial vs : List Visit}
    (hi : p.initialVisits = .ok initial) (hdistinct : (initial.map Visit.id).Nodup)
    (hin : ∀ v ∈ initial, ∀ a ∈ v.locations, Inside p a) {k : Kernel} (hk : Kernel.ofTree p roots = .ok k)
    (hv : k.visits = .ok vs) (h : Faithful p initial vs) : (ofProgram p).checkLegal roots = .ok () := by
  obtain ⟨d, hd⟩ := Dataflow.exists_ofProgram hfew hi hdistinct hin
  exact checkLegal_eq_ok.2 ⟨d, k, hd, hk, Dataflow.check_of_faithful hp hfew hd hk hi hv h⟩

theorem faithful_of_checkLegal (hp : p.WellFormed) (hfew : p.FewInstances)
    (h : (ofProgram p).checkLegal roots = .ok ()) :
    ∃ initial k vs, p.initialVisits = .ok initial ∧ Kernel.ofTree p roots = .ok k ∧
      k.visits = .ok vs ∧ Faithful p initial vs := by
  obtain ⟨d, k, hd, hk, h⟩ := checkLegal_eq_ok.1 h
  obtain ⟨initial, vs, hi, hv, hfaithful⟩ := Dataflow.faithful_of_check hp hfew hd hk h
  exact ⟨initial, k, vs, hi, hk, hv, hfaithful⟩

end Context

namespace ProducerConsumer

def program : Program where
  name := "producer_consumer"
  params := [("N", 2)]
  buffers :=
    [⟨"input", [2], .float64, .input⟩, ⟨"buf", [2], .float64, .temporary⟩, ⟨"out", [2], .float64, .output⟩]
  computations :=
    [⟨"produce", [⟨"i", .ofInt 0, .ofInt 2⟩], .binary .mul (.const 2.0) (.load ⟨0, [.var "i"]⟩),
       ⟨1, [.var "i"]⟩, none⟩,
     ⟨"consume", [⟨"i", .ofInt 0, .ofInt 2⟩], .binary .add (.load ⟨1, [.var "i"]⟩) (.const 1.0),
       ⟨2, [.var "i"]⟩, none⟩]

def separate : List Node :=
  [.loop ⟨"i", .ofInt 0, .ofInt 2, none, {}⟩ [.leaf ⟨0, [.var "i"]⟩],
    .loop ⟨"i_1", .ofInt 0, .ofInt 2, none, {}⟩ [.leaf ⟨1, [.var "i_1"]⟩]]

def fused (tags : Tags) : List Node :=
  [.loop ⟨"i", .ofInt 0, .ofInt 2, none, tags⟩ [.leaf ⟨0, [.var "i"]⟩, .leaf ⟨1, [.var "i"]⟩]]

def visit (c : Nat) (i : Int) (concurrent : List Iteration) : Visit :=
  ⟨(c, [i]), [(c, some i.toNat)], (c + 1, some i.toNat), concurrent⟩

def initial : List Visit := [visit 0 0 [], visit 0 1 [], visit 1 0 [], visit 1 1 []]

def interleaved (concurrent : Int → List Iteration) : List Visit :=
  [visit 0 0 (concurrent 0), visit 1 0 (concurrent 0), visit 0 1 (concurrent 1), visit 1 1 (concurrent 1)]

theorem build_eq : (Description.producerConsumer 2).build = .ok program := rfl

theorem nesting_eq : program.nesting = .ok separate := rfl

theorem initialVisits_eq : program.initialVisits = .ok initial := rfl

theorem fewInstances : program.FewInstances := Program.fewInstances_of_visits initialVisits_eq (by decide)

theorem exists_record : ∃ d, Dataflow.ofProgram program = .ok d :=
  Dataflow.exists_ofProgram fewInstances initialVisits_eq (by decide) (by decide)

theorem exists_sequential : ∃ k, Kernel.ofTree program (fused {}) = .ok k ∧
    k.visits = .ok (interleaved fun _ => []) := ⟨_, rfl, rfl⟩

theorem exists_parallel : ∃ k, Kernel.ofTree program (fused { parallel := true }) = .ok k ∧
    k.visits = .ok (interleaved fun v => [⟨0, "i", [], v⟩]) := ⟨_, rfl, rfl⟩

theorem checkLegal_fused : (Context.ofProgram program).checkLegal (fused {}) = .ok () ∧
    (Context.ofProgram program).checkLegal (fused { parallel := true }) = .ok () := by
  have hwf := Description.wellFormed_of_build build_eq
  have hlegal {vs : List Visit} {tags : Tags} {k : Kernel} (hk : Kernel.ofTree program (fused tags) = .ok k)
      (hv : k.visits = .ok vs) (h : Faithful program initial vs) :
      (Context.ofProgram program).checkLegal (fused tags) = .ok () :=
    Context.checkLegal_of_faithful hwf fewInstances initialVisits_eq (by decide) (by decide) hk hv h
  obtain ⟨k, hk, hv⟩ := exists_sequential
  obtain ⟨k', hk', hv'⟩ := exists_parallel
  exact ⟨hlegal hk hv (by decide), hlegal hk' hv' (by decide)⟩

end ProducerConsumer

namespace Dataflow

/-- For a program that was described, the check is passed exactly by the trees whose walks run the instances
of the initial one, each once and inside its buffers, with the same producers of all values read, the same
last writers of all cells, and no clash between iterations of a concurrent loop. -/
theorem check_ok_iff_faithful {p : Program} {d : Dataflow} {description : Description}
    (hp : description.build = .ok p) (hfew : p.FewInstances) (hd : ofProgram p = .ok d) {roots : List Node}
    {k : Kernel} (hk : Kernel.ofTree p roots = .ok k) :
    d.check p k = .ok () ↔
      ∃ initial vs, p.initialVisits = .ok initial ∧ k.visits = .ok vs ∧ Faithful p initial vs := by
  have hwf := Description.wellFormed_of_build hp
  constructor
  · exact faithful_of_check hwf hfew hd hk
  · rintro ⟨initial, vs, hi, hv, h⟩
    exact check_of_faithful hwf hfew hd hk hi hv h

theorem check_ok_iff_faithful_producerConsumer : ∃ d k, ofProgram ProducerConsumer.program = .ok d ∧
    Kernel.ofTree ProducerConsumer.program (ProducerConsumer.fused { parallel := true }) = .ok k ∧
      d.check ProducerConsumer.program k = .ok () := by
  obtain ⟨d, hd⟩ := ProducerConsumer.exists_record
  obtain ⟨k, hk, hv⟩ := ProducerConsumer.exists_parallel
  exact ⟨d, k, hd, hk, (check_ok_iff_faithful ProducerConsumer.build_eq ProducerConsumer.fewInstances hd hk).2
    ⟨_, _, ProducerConsumer.initialVisits_eq, hv, by decide⟩⟩

end Dataflow

end LoopNest
