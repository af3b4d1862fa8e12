import LoopNest.Description.Catalogue
import LoopNest.Description.Resolution
import LoopNest.Proofs.Program.Addressing

namespace LoopNest

namespace Affine

theorem scale_ofInt_eq_map (n k : Int) : (ofInt n).scale k = (Word.mul n k).map ofInt := by
  change (do
    let c ← Word.mul n k
    return ofInt c) = _
  cases Word.mul n k with
  | error e => rfl
  | ok c => rfl

theorem add_ofInt_eq_map (m n : Int) : (ofInt m).add (ofInt n) = (Word.add m n).map ofInt := by
  change (do
    let c ← Word.add m n
    return ofInt c) = _
  cases Word.add m n with
  | error e => rfl
  | ok c => rfl

end Affine

namespace Description

open LoopNest.Affine (ofInt)

section Texts

variable {s : Scope} {n k : Int} (hn : param? s.params "N" = some n) {text : String}
  (htext : Affine.parse text = .ok ⟨[⟨1, "N"⟩], k⟩)
include hn htext

theorem affine_size_eq_ok {f : Affine} :
    s.affine text = .ok f ↔ Word.fits n = true ∧ Word.fits (k + n) = true ∧ f = ofInt (k + n) := by
  have hresolve : s.resolve "N" = .ok (ofInt n) := by rw [Scope.resolve, hn]
  have hparts : s.affine text = .ok f ↔ ∃ g h, (ofInt n).scale 1 = .ok g ∧ (ofInt k).add g = .ok h ∧ h = f := by
    rw [Scope.affine, htext, Outcome.mapRefusal, ok_bind, Affine.tryBind, Affine.bindTerms, hresolve, ok_bind]
    simp only [bind_eq_ok, lift_eq_ok, Affine.bindTerms, Except.ok.injEq]
    constructor
    · rintro ⟨g, hg, h, hh, rfl⟩
      exact ⟨g, h, hg, hh, rfl⟩
    · rintro ⟨g, h, hg, hh, rfl⟩
      exact ⟨g, hg, h, hh, rfl⟩
  simp only [hparts, Affine.scale_ofInt_eq_map, map_eq_ok, Word.mul_eq_ok, Int.mul_one]
  constructor
  · rintro ⟨_, h, ⟨m, ⟨rfl, hm⟩, rfl⟩, hh, rfl⟩
    rw [Affine.add_ofInt_eq_map, map_eq_ok] at hh
    obtain ⟨c, hc, rfl⟩ := hh
    obtain ⟨rfl, hsum⟩ := Word.add_eq_ok.1 hc
    exact ⟨hm, hsum, rfl⟩
  · rintro ⟨hm, hc, rfl⟩
    refine ⟨ofInt n, ofInt (k + n), ⟨n, ⟨rfl, hm⟩, rfl⟩, ?_, rfl⟩
    rw [Affine.add_ofInt_eq_map, Word.add, Word.checked_of_fits hc]
    rfl

theorem extent_size_eq_ok (buffer : String) (dim : Nat) {m : Nat} :
    extent s buffer dim text = .ok m ↔ Word.fits n = true ∧ k + n = m ∧ 0 < m ∧ m ≤ Decimal.word32Max := by
  simp only [extent, bind_eq_ok, affine_size_eq_ok hn htext]
  constructor
  · rintro ⟨f, ⟨hfits, -, rfl⟩, h⟩
    simp only [Affine.constant?, ofInt, List.isEmpty_nil, if_true] at h
    split at h
    · next hsize =>
      cases h
      simp only [Bool.and_eq_true, decide_eq_true_eq] at hsize
      refine ⟨hfits, ?_⟩
      omega
    · cases h
  · rintro ⟨hfits, hm, hpos, hle⟩
    refine ⟨_, ⟨hfits, ?_, rfl⟩, ?_⟩
    · rw [hm]
      exact Word.fits_natCast (by unfold Decimal.word32Max at hle; omega)
    · simp [Affine.constant?, ofInt, hm, hpos, hle]
      rfl

end Texts

section Buffers

variable {params : List (String × Int)}

theorem exists_resolveBuffer {done bs : List LoopNest.Buffer} {ds : List Buffer}
    (h : resolveBuffers params done ds = .ok bs) : ∀ d ∈ ds, ∃ b, resolveBuffer params d = .ok b := by
  induction ds generalizing done with
  | nil => exact fun d hd => absurd hd List.not_mem_nil
  | cons d ds ih =>
    obtain ⟨b, hb, h⟩ := bind_eq_ok.1 h
    split at h
    · cases h
    · exact List.forall_mem_cons.2 ⟨⟨b, hb⟩, ih h⟩

theorem resolveBuffers_eq {ds : List Buffer} {bs : List LoopNest.Buffer}
    (h : List.Forall₂ (fun d b => resolveBuffer params d = .ok b ∧ b.name = d.name) ds bs)
    {done : List LoopNest.Buffer} (hnames : (done.map LoopNest.Buffer.name ++ ds.map Buffer.name).Nodup) :
    resolveBuffers params done ds = .ok (done ++ bs) := by
  induction h generalizing done with
  | nil => rw [resolveBuffers, List.append_nil]
  | @cons d b ds bs hd _ ih =>
    have hnew : ¬ (done.any fun x => x.name == d.name) = true := by
      rw [List.any_eq_true]
      rintro ⟨x, hx, hsame⟩
      rw [List.map_cons, List.nodup_append] at hnames
      exact hnames.2.2 _ (List.mem_map_of_mem hx) _ List.mem_cons_self (beq_iff_eq.1 hsame)
    rw [resolveBuffers, hd.1, ok_bind, if_neg hnew, ih, List.append_assoc, List.singleton_append]
    rw [List.map_append, List.append_assoc, List.map_singleton, hd.2]
    exact hnames

theorem resolveBuffer_matrix_eq_ok {n k l : Int} (hn : param? params "N" = some n) {d : Buffer} {rows cols : String}
    (hshape : d.shape = [rows, cols]) (hrows : Affine.parse rows = .ok ⟨[⟨1, "N"⟩], k⟩)
    (hcols : Affine.parse cols = .ok ⟨[⟨1, "N"⟩], l⟩) {b : LoopNest.Buffer} :
    resolveBuffer params d = .ok b ↔ ∃ r c : Nat, Word.fits n = true ∧
      (k + n = r ∧ 0 < r ∧ r ≤ Decimal.word32Max) ∧ (l + n = c ∧ 0 < c ∧ c ≤ Decimal.word32Max) ∧
      r * c ≤ 9223372036854775807 ∧ b = ⟨d.name, [r, c], d.dtype, d.kind⟩ := by
  have hextent {t : String} {j : Int} (ht : Affine.parse t = .ok ⟨[⟨1, "N"⟩], j⟩) (dim m : Nat) :=
    extent_size_eq_ok (s := ⟨params, [], "buffer " ++ ticked d.name⟩) hn ht d.name dim (m := m)
  rw [resolveBuffer, hshape]
  simp only [extents, bind_eq_ok, hextent hrows, hextent hcols, pure_eq_ok]
  constructor
  · rintro ⟨shape, ⟨r, ⟨hfits, hr⟩, _, ⟨c, ⟨-, hc⟩, _, hnil, rfl⟩, rfl⟩, h⟩
    cases hnil
    split at h
    · next hvolume =>
      cases h
      refine ⟨r, c, hfits, hr, hc, ?_, rfl⟩
      simpa [product] using hvolume
    · cases h
  · rintro ⟨r, c, hfits, hr, hc, hvolume, rfl⟩
    refine ⟨[r, c], ⟨r, ⟨hfits, hr⟩, [c], ⟨c, ⟨hfits, hc⟩, [], rfl, rfl⟩, rfl⟩, ?_⟩
    rw [if_pos (by simpa [product] using hvolume)]
    rfl

end Buffers

section Computations

variable {params : List (String × Int)} {buffers : List LoopNest.Buffer} {done : List LoopNest.Computation}

theorem resolveDomain_cons {s : Scope} {done : List Dimension} {name upper : String} {rest : List Iterator}
    {f : Affine} (hname : (done.map Dimension.name).contains name = false) (hparam : param? s.params name = none)
    (hf : ({ s with iterators := done.map Dimension.name } : Scope).affine upper = .ok f) :
    resolveDomain s done (Catalogue.upTo name upper :: rest) =
      resolveDomain s (done ++ [⟨name, ofInt 0, f⟩]) rest := by
  have hzero : ({ s with iterators := done.map Dimension.name } : Scope).affine "0" = .ok (ofInt 0) := rfl
  rw [Catalogue.upTo, resolveDomain]
  simp only [hname, hparam, Option.isSome_none, Bool.or_self, Bool.false_eq_true, if_false, hzero, hf, ok_bind]

theorem resolveComputation_eq {d : Computation} {domain : List Dimension} {store : LoopNest.Access}
    {expr : LoopNest.Expr} {after : Option (Nat × Nat)} {owner : String}
    (howner : "computation " ++ ticked d.name = owner)
    (hdomain : resolveDomain ⟨params, [], owner⟩ [] d.iterators = .ok domain)
    (hstore : resolveAccess ⟨params, domain.map Dimension.name, owner⟩ buffers d.store = .ok store)
    (hkind : (buffers[store.buffer]?.map LoopNest.Buffer.kind == some .input) = false)
    (hexpr : resolveExpr ⟨params, domain.map Dimension.name, owner⟩ buffers d.expr = .ok expr)
    (hafter : resolveAfter d.name domain done d.after = .ok after) :
    resolveComputation params buffers done d = .ok ⟨d.name, domain, expr, store, after⟩ := by
  rw [resolveComputation]
  simp only [howner, hdomain, hstore, hkind, hexpr, hafter, ok_bind, Bool.false_eq_true, if_false]
  rfl

theorem resolveComputations_cons {d : Computation} {rest : List Computation} {c : LoopNest.Computation}
    (hd : resolveComputation params buffers done d = .ok c) (hname : (done.any fun e => e.name == d.name) = false) :
    resolveComputations params buffers done (d :: rest) =
      resolveComputations params buffers (done ++ [c]) rest := by
  rw [resolveComputations, hd, ok_bind, hname]
  rfl

theorem sameBounds_self {rename : String → String} {ds : List Dimension}
    (h : ∀ d ∈ ds, d.lower.bindVars (fun a => .var (rename a)) = .ok d.lower ∧
      d.upper.bindVars (fun a => .var (rename a)) = .ok d.upper) : sameBounds rename ds ds = .ok true := by
  induction ds with
  | nil => rfl
  | cons d ds ih =>
    obtain ⟨⟨hlower, hupper⟩, h⟩ := List.forall_mem_cons.1 h
    rw [sameBounds, hlower, ok_bind, if_neg (not_not_intro rfl), hupper, ok_bind, if_neg (not_not_intro rfl), ih h]

theorem checkSharing_self (name : String) {domain shared : List Dimension} {other : LoopNest.Computation}
    {level : Nat} (hlevel : level < domain.length ∧ level < other.domain.length)
    (hmine : domain.take (level + 1) = shared) (htheirs : other.domain.take (level + 1) = shared)
    (hbounds : ∀ d ∈ shared, d.lower.bindVars (fun a => .var (renameBy shared shared a)) = .ok d.lower ∧
      d.upper.bindVars (fun a => .var (renameBy shared shared a)) = .ok d.upper) :
    checkSharing name domain other level = .ok () := by
  have hshort : ¬ (decide (domain.length ≤ level) || decide (other.domain.length ≤ level)) = true := by
    simp only [Bool.or_eq_true, decide_eq_true_eq]
    omega
  rw [checkSharing, if_neg hshort, hmine, htheirs]
  simp only [sameBounds_self hbounds, lift_ok, ok_bind, if_true]
  rfl

theorem resolveAfter_eq {name : String} {domain : List Dimension} (shared : List Dimension) {a : After} {i : Nat}
    {other : LoopNest.Computation} (hposition : position? (fun c => c.name == a.computation) done = some i)
    (hother : done[i]? = some other) (hlevel : a.level < domain.length ∧ a.level < other.domain.length)
    (hmine : domain.take (a.level + 1) = shared) (htheirs : other.domain.take (a.level + 1) = shared)
    (hbounds : ∀ d ∈ shared, d.lower.bindVars (fun a => .var (renameBy shared shared a)) = .ok d.lower ∧
      d.upper.bindVars (fun a => .var (renameBy shared shared a)) = .ok d.upper) :
    resolveAfter name domain done (some a) = .ok (some (i, a.level)) := by
  simp only [resolveAfter, hposition, hother, checkSharing_self name hlevel hmine htheirs hbounds, ok_bind]
  rfl

end Computations

end Description

namespace Program

namespace Catalogue

def upTo (name : String) (upper : Affine) : Dimension := ⟨name, .ofInt 0, upper⟩

def square (n : Nat) (name : String) (kind : BufferRole) : Buffer := ⟨name, [n, n], .float64, kind⟩

def entry (b : Nat) (i j : String) : Access := ⟨b, [.var i, .var j]⟩

def clear (n : Nat) (name : String) (c : Nat) : Computation where
  name := name
  domain := [upTo "i" (.ofInt n), upTo "j" (.ofInt n)]
  expr := .const 0.0
  store := entry c "i" "j"
  after := none

def accumulate (n : Nat) (name : String) (c a b : Nat) : Computation where
  name := name
  domain := [upTo "i" (.ofInt n), upTo "j" (.ofInt n), upTo "k" (.ofInt n)]
  expr := .binary .add (.load (entry c "i" "j")) (.binary .mul (.load (entry a "i" "k")) (.load (entry b "k" "j")))
  store := entry c "i" "j"
  after := none

def mean (f : Nat → Access) : Expr :=
  .binary .div (.binary .add (.binary .add (.load (f 0)) (.load (f 1))) (.load (f 2))) (.const 3.0)

end Catalogue

open Catalogue

def matmul (n : Nat) : Program where
  name := "matmul"
  params := [("N", n)]
  buffers := [square n "A" .input, square n "B" .input, square n "C" .output]
  computations := [clear n "init" 2, accumulate n "acc" 2 0 1]

def twoMatmul (n : Nat) : Program where
  name := "2mm"
  params := [("N", n)]
  buffers :=
    [square n "A" .input, square n "B" .input, square n "C" .input, square n "tmp" .temporary, square n "D" .output]
  computations :=
    [clear n "tmp_init" 3, accumulate n "tmp_acc" 3 0 1, clear n "d_init" 4, accumulate n "d_acc" 4 3 2]

def blur (n : Nat) : Program where
  name := "blur"
  params := [("N", (n + 2 : Nat))]
  buffers :=
    [⟨"input", [n + 2, n + 2], .float32, .input⟩, ⟨"bx", [n + 2, n], .float32, .temporary⟩,
      ⟨"by", [n, n], .float32, .output⟩]
  computations :=
    [{ name := "blur_x"
       domain := [upTo "i" (.ofInt (n + 2 : Nat)), upTo "j" (.ofInt n)]
       expr := mean fun k => ⟨0, [.var "i", ⟨[⟨1, "j"⟩], k⟩]⟩
       store := entry 1 "i" "j"
       after := none },
     { name := "blur_y"
       domain := [upTo "i" (.ofInt n), upTo "j" (.ofInt n)]
       expr := mean fun k => ⟨1, [⟨[⟨1, "i"⟩], k⟩, .var "j"]⟩
       store := entry 2 "i" "j"
       after := none }]

def cholesky (n : Nat) : Program where
  name := "cholesky"
  params := [("N", n)]
  buffers := [square n "A" .input, square n "L" .output]
  computations :=
    [{ name := "copy"
       domain := [upTo "i" (.ofInt n), upTo "j" (.ofInt n)]
       expr := .load (entry 0 "i" "j")
       store := entry 1 "i" "j"
       after := none },
     { name := "S1"
       domain := [upTo "i" (.ofInt n), upTo "j" (.var "i"), upTo "k" (.var "j")]
       expr := .binary .sub (.load (entry 1 "i" "j"))
         (.binary .mul (.load (entry 1 "i" "k")) (.load (entry 1 "j" "k")))
       store := entry 1 "i" "j"
       after := none },
     { name := "S2"
       domain := [upTo "i" (.ofInt n), upTo "j" (.var "i")]
       expr := .binary .div (.load (entry 1 "i" "j")) (.load (entry 1 "j" "j"))
       store := entry 1 "i" "j"
       after := some (1, 1) },
     { name := "S3"
       domain := [upTo "i" (.ofInt n), upTo "k" (.var "i")]
       expr := .binary .sub (.load (entry 1 "i" "i"))
         (.binary .mul (.load (entry 1 "i" "k")) (.load (entry 1 "i" "k")))
       store := entry 1 "i" "i"
       after := some (2, 0) },
     { name := "S4"
       domain := [upTo "i" (.ofInt n)]
       expr := .call .sqrt (.load (entry 1 "i" "i"))
       store := entry 1 "i" "i"
       after := some (3, 0) }]

end Program

namespace Description

open LoopNest.Affine (ofInt)
open Program.Catalogue (upTo square clear accumulate)

structure Fits (n : Nat) : Prop where
  positive : 0 < n
  word : n ≤ Decimal.word32Max
  volume : n * n ≤ 9223372036854775807

theorem Fits.fits {n : Nat} (hn : Fits n) : Word.fits (n : Int) = true := by
  have hword := hn.word
  unfold Decimal.word32Max at hword
  exact Word.fits_natCast (by omega)

theorem fits_of_build {d : Description} {p : Program} (h : d.build = .ok p) {n k : Int}
    (hn : param? d.params "N" = some n) {text : String} (htext : Affine.parse text = .ok ⟨[⟨1, "N"⟩], k⟩)
    {b : Buffer} (hb : b ∈ d.buffers) (hshape : b.shape = [text, text]) : ∃ m : Nat, k + n = m ∧ Fits m := by
  rw [build] at h
  split at h
  · cases h
  · obtain ⟨buffers, hbuffers, -⟩ := bind_eq_ok.1 h
    obtain ⟨buffer, hbuffer⟩ := exists_resolveBuffer hbuffers b hb
    obtain ⟨r, c, -, ⟨hr, hpos, hword⟩, ⟨hc, -⟩, hvolume, -⟩ :=
      (resolveBuffer_matrix_eq_ok hn hshape htext htext).1 hbuffer
    obtain rfl : r = c := by omega
    exact ⟨r, hr, hpos, hword, hvolume⟩

theorem build_eq {d : Description} (hd : d.computations.isEmpty = false) {buffers : List LoopNest.Buffer}
    (hbuffers : resolveBuffers d.params [] d.buffers = .ok buffers) {computations : List LoopNest.Computation}
    (hcomputations : resolveComputations d.params buffers [] d.computations = .ok computations) :
    d.build = .ok ⟨d.name, d.params, buffers, computations⟩ := by
  rw [build, hd, hbuffers, ok_bind, hcomputations]
  rfl

section Square

variable {n : Nat} (hn : Fits n)
include hn

theorem resolveBuffer_square (name : String) (kind : BufferRole) :
    resolveBuffer [("N", (n : Int))] (Catalogue.square name kind) = .ok (square n name kind) ∧
      (square n name kind).name = (Catalogue.square name kind).name := by
  refine ⟨(resolveBuffer_matrix_eq_ok (k := 0) (l := 0) rfl rfl rfl rfl).2 ?_, rfl⟩
  have hside : (0 : Int) + n = n ∧ 0 < n ∧ n ≤ Decimal.word32Max := ⟨Int.zero_add _, hn.positive, hn.word⟩
  exact ⟨n, n, hn.fits, hside, hside, hn.volume, rfl⟩

theorem affine_N (names : List String) (owner : String) :
    (⟨[("N", (n : Int))], names, owner⟩ : Scope).affine "N" = .ok (ofInt n) := by
  refine (affine_size_eq_ok (k := 0) rfl rfl).2 ⟨hn.fits, ?_, ?_⟩
  · rw [Int.zero_add]
    exact hn.fits
  · rw [Int.zero_add]

theorem resolveDomain_square (owner : String) : resolveDomain ⟨[("N", (n : Int))], [], owner⟩ []
    [Catalogue.upTo "i" "N", Catalogue.upTo "j" "N"] = .ok [upTo "i" (ofInt n), upTo "j" (ofInt n)] := by
  rw [resolveDomain_cons rfl rfl (affine_N hn _ _), resolveDomain_cons rfl rfl (affine_N hn _ _)]
  rfl

theorem resolveDomain_cube (owner : String) : resolveDomain ⟨[("N", (n : Int))], [], owner⟩ []
    [Catalogue.upTo "i" "N", Catalogue.upTo "j" "N", Catalogue.upTo "k" "N"] =
      .ok [upTo "i" (ofInt n), upTo "j" (ofInt n), upTo "k" (ofInt n)] := by
  rw [resolveDomain_cons rfl rfl (affine_N hn _ _), resolveDomain_cons rfl rfl (affine_N hn _ _),
    resolveDomain_cons rfl rfl (affine_N hn _ _)]
  rfl

theorem build_matmul : (matmul n).build = .ok (.matmul n) := by
  apply build_eq rfl
  · apply resolveBuffers_eq
    · exact .cons (resolveBuffer_square hn _ _) (.cons (resolveBuffer_square hn _ _)
        (.cons (resolveBuffer_square hn _ _) .nil))
    · change ["A", "B", "C"].Nodup
      decide
  · change resolveComputations _ (Program.matmul n).buffers _ _ = _
    rw [matmul, resolveComputations_cons (resolveComputation_eq rfl (resolveDomain_square hn _) rfl rfl rfl rfl) rfl,
      resolveComputations_cons (resolveComputation_eq rfl (resolveDomain_cube hn _) rfl rfl rfl rfl) rfl]
    rfl

theorem build_twoMatmul : (twoMatmul n).build = .ok (.twoMatmul n) := by
  apply build_eq rfl
  · apply resolveBuffers_eq
    · exact .cons (resolveBuffer_square hn _ _) (.cons (resolveBuffer_square hn _ _)
        (.cons (resolveBuffer_square hn _ _) (.cons (resolveBuffer_square hn _ _)
          (.cons (resolveBuffer_square hn _ _) .nil))))
    · change ["A", "B", "C", "tmp", "D"].Nodup
      decide
  · change resolveComputations _ (Program.twoMatmul n).buffers _ _ = _
    rw [twoMatmul, resolveComputations_cons (resolveComputation_eq rfl (resolveDomain_square hn _) rfl rfl rfl rfl) rfl,
      resolveComputations_cons (resolveComputation_eq rfl (resolveDomain_cube hn _) rfl rfl rfl rfl) rfl,
      resolveComputations_cons (resolveComputation_eq rfl (resolveDomain_square hn _) rfl rfl rfl rfl) rfl,
      resolveComputations_cons (resolveComputation_eq rfl (resolveDomain_cube hn _) rfl rfl rfl rfl) rfl]
    rfl

theorem resolveDomain_triangle (owner inner : String) (hinner : (["i"].contains inner) = false)
    (hparam : param? [("N", (n : Int))] inner = none) : resolveDomain ⟨[("N", (n : Int))], [], owner⟩ []
    [Catalogue.upTo "i" "N", Catalogue.upTo inner "i"] = .ok [upTo "i" (ofInt n), upTo inner (.var "i")] := by
  rw [resolveDomain_cons rfl rfl (affine_N hn _ _), resolveDomain_cons hinner hparam rfl]
  rfl

theorem build_cholesky : (cholesky n).build = .ok (.cholesky n) := by
  have hrows (owner : String) : resolveDomain ⟨[("N", (n : Int))], [], owner⟩ [] [Catalogue.upTo "i" "N"] =
      .ok [upTo "i" (ofInt n)] := by
    rw [resolveDomain_cons rfl rfl (affine_N hn _ _)]
    rfl
  have hpyramid (owner : String) : resolveDomain ⟨[("N", (n : Int))], [], owner⟩ []
      [Catalogue.upTo "i" "N", Catalogue.upTo "j" "i", Catalogue.upTo "k" "j"] =
        .ok [upTo "i" (ofInt n), upTo "j" (.var "i"), upTo "k" (.var "j")] := by
    rw [resolveDomain_cons rfl rfl (affine_N hn _ _), resolveDomain_cons rfl rfl rfl, resolveDomain_cons rfl rfl rfl]
    rfl
  -- the shared bounds mention `i` at most, and `i` is never renamed
  have hsame : ∀ d ∈ [upTo "i" (ofInt n), upTo "j" (.var "i")], ∀ rename : String → String, rename "i" = "i" →
      d.lower.bindVars (fun a => .var (rename a)) = .ok d.lower ∧
      d.upper.bindVars (fun a => .var (rename a)) = .ok d.upper := by
    refine List.forall_mem_cons.2 ⟨fun rename _ => ⟨rfl, rfl⟩, List.forall_mem_singleton.2 fun rename hi => ?_⟩
    rw [upTo, Affine.bindVars, Affine.bindVars, Affine.var, Affine.bindVarTerms, hi]
    exact ⟨rfl, rfl⟩
  have hS2 : resolveAfter "S2" [upTo "i" (ofInt n), upTo "j" (.var "i")] ((Program.cholesky n).computations.take 2)
      (some ⟨"S1", 1⟩) = .ok (some (1, 1)) := by
    refine resolveAfter_eq [upTo "i" (ofInt n), upTo "j" (.var "i")] rfl rfl ⟨?_, ?_⟩ rfl rfl ?_
    · change 1 < 2
      decide
    · change 1 < 3
      decide
    · exact fun d hd => hsame d hd _ rfl
  have hS3 : resolveAfter "S3" [upTo "i" (ofInt n), upTo "k" (.var "i")] ((Program.cholesky n).computations.take 3)
      (some ⟨"S2", 0⟩) = .ok (some (2, 0)) := by
    refine resolveAfter_eq [upTo "i" (ofInt n)] rfl rfl ⟨?_, ?_⟩ rfl rfl ?_
    · change 0 < 2
      decide
    · change 0 < 2
      decide
    · exact fun d hd => hsame d (List.mem_singleton.1 hd ▸ List.mem_cons_self) _ rfl
  have hS4 : resolveAfter "S4" [upTo "i" (ofInt n)] ((Program.cholesky n).computations.take 4) (some ⟨"S3", 0⟩) =
      .ok (some (3, 0)) := by
    refine resolveAfter_eq [upTo "i" (ofInt n)] rfl rfl ⟨?_, ?_⟩ rfl rfl ?_
    · change 0 < 1
      decide
    · change 0 < 2
      decide
    · exact fun d hd => hsame d (List.mem_singleton.1 hd ▸ List.mem_cons_self) _ rfl
  apply build_eq rfl
  · apply resolveBuffers_eq
    · exact .cons (resolveBuffer_square hn _ _) (.cons (resolveBuffer_square hn _ _) .nil)
    · change ["A", "L"].Nodup
      decide
  · change resolveComputations _ (Program.cholesky n).buffers _ _ = _
    rw [cholesky, resolveComputations_cons
      (resolveComputation_eq rfl (resolveDomain_square hn _) rfl rfl rfl rfl) rfl]
    refine (resolveComputations_cons (resolveComputation_eq rfl (hpyramid _) rfl rfl rfl rfl) rfl).trans ?_
    refine (resolveComputations_cons (resolveComputation_eq rfl (resolveDomain_triangle hn _ "j" rfl rfl) rfl rfl rfl
      hS2) rfl).trans ?_
    refine (resolveComputations_cons (resolveComputation_eq rfl (resolveDomain_triangle hn _ "k" rfl rfl) rfl rfl rfl
      hS3) rfl).trans ?_
    exact resolveComputations_cons (resolveComputation_eq rfl (hrows _) rfl rfl rfl hS4) rfl

end Square

theorem build_blur {n : Nat} (hpos : 0 < n) (hn : Fits (n + 2)) : (blur (n + 2 : Nat)).build = .ok (.blur n) := by
  have hword := hn.word
  have hwide : (0 : Int) + (n + 2 : Nat) = (n + 2 : Nat) ∧ 0 < n + 2 ∧ n + 2 ≤ Decimal.word32Max :=
    ⟨Int.zero_add _, hn.positive, hword⟩
  have hnarrow : (-2 : Int) + (n + 2 : Nat) = n ∧ 0 < n ∧ n ≤ Decimal.word32Max := ⟨by omega, hpos, by omega⟩
  have hlong : (n + 2) * n ≤ 9223372036854775807 :=
    Nat.le_trans (Nat.mul_le_mul_left _ (Nat.le_add_right n 2)) hn.volume
  have hsmall : n * n ≤ 9223372036854775807 := Nat.le_trans (Nat.mul_le_mul_right n (Nat.le_add_right n 2)) hlong
  -- the inner size is two less than the outer one
  have hinner (names : List String) (owner : String) :
      (⟨[("N", ((n + 2 : Nat) : Int))], names, owner⟩ : Scope).affine "N - 2" = .ok (ofInt n) := by
    refine (affine_size_eq_ok (k := -2) rfl rfl).2 ⟨hn.fits, ?_, ?_⟩
    · rw [hnarrow.1]
      exact Word.fits_natCast (by unfold Decimal.word32Max at hword; omega)
    · rw [hnarrow.1]
  have htall (owner : String) : resolveDomain ⟨[("N", ((n + 2 : Nat) : Int))], [], owner⟩ []
      [Catalogue.upTo "i" "N", Catalogue.upTo "j" "N - 2"] =
        .ok [upTo "i" (ofInt (n + 2 : Nat)), upTo "j" (ofInt n)] := by
    rw [resolveDomain_cons rfl rfl (affine_N hn _ _), resolveDomain_cons rfl rfl (hinner _ _)]
    rfl
  have hinnerSquare (owner : String) : resolveDomain ⟨[("N", ((n + 2 : Nat) : Int))], [], owner⟩ []
      [Catalogue.upTo "i" "N - 2", Catalogue.upTo "j" "N - 2"] = .ok [upTo "i" (ofInt n), upTo "j" (ofInt n)] := by
    rw [resolveDomain_cons rfl rfl (hinner _ _), resolveDomain_cons rfl rfl (hinner _ _)]
    rfl
  apply build_eq rfl
  · apply resolveBuffers_eq
    · refine .cons ⟨(resolveBuffer_matrix_eq_ok (k := 0) (l := 0) rfl rfl rfl rfl).2 ?_, rfl⟩
        (.cons ⟨(resolveBuffer_matrix_eq_ok (k := 0) (l := -2) rfl rfl rfl rfl).2 ?_, rfl⟩
          (.cons ⟨(resolveBuffer_matrix_eq_ok (k := -2) (l := -2) rfl rfl rfl rfl).2 ?_, rfl⟩ .nil))
      · exact ⟨n + 2, n + 2, hn.fits, hwide, hwide, hn.volume, rfl⟩
      · exact ⟨n + 2, n, hn.fits, hwide, hnarrow, hlong, rfl⟩
      · exact ⟨n, n, hn.fits, hnarrow, hnarrow, hsmall, rfl⟩
    · change ["input", "bx", "by"].Nodup
      decide
  · change resolveComputations _ (Program.blur n).buffers _ _ = _
    refine (resolveComputations_cons (resolveComputation_eq rfl (htall _) rfl rfl rfl rfl) rfl).trans ?_
    exact resolveComputations_cons (resolveComputation_eq rfl (hinnerSquare _) rfl rfl rfl rfl) rfl

end Description

end LoopNest
