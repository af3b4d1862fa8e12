import LoopNest.Proofs.Program.Domain

namespace LoopNest

namespace Word

theorem fits_natCast {n : Nat} (h : n ≤ 9223372036854775807) : fits (n : Int) = true := by
  rw [fits_iff, minValue, maxValue]
  omega

theorem mul_natCast {a b : Nat} (h : a * b ≤ 9223372036854775807) : mul a b = .ok ((a * b : Nat) : Int) := by
  rw [mul, ← Int.natCast_mul]
  exact checked_of_fits (fits_natCast h)

theorem add_natCast {a b : Nat} (h : a + b ≤ 9223372036854775807) : add a b = .ok ((a + b : Nat) : Int) := by
  rw [add, ← Int.natCast_add]
  exact checked_of_fits (fits_natCast h)

end Word

namespace RowMajor

def Inside (shape : List Nat) (vs : List Int) : Prop :=
  List.Forall₂ (fun (v : Int) (extent : Nat) => 0 ≤ v ∧ v < extent) vs shape

def encode : List Nat → List Int → Nat
  | _ :: shape, v :: vs => v.toNat * product shape + encode shape vs
  | _, _ => 0

def decode : List Nat → Nat → List Int
  | [], _ => []
  | _ :: shape, n => (n / product shape : Nat) :: decode shape (n % product shape)

section Digits

variable {shape : List Nat} {vs : List Int}

theorem product_cons (extent : Nat) (shape : List Nat) : product (extent :: shape) = extent * product shape := rfl

theorem product_pos (h : ∀ n ∈ shape, 0 < n) : 0 < product shape := by
  induction shape with
  | nil => exact Nat.one_pos
  | cons extent shape ih =>
    obtain ⟨hextent, h⟩ := List.forall_mem_cons.1 h
    exact Nat.mul_pos hextent (ih h)

theorem digit_le {v extent : Nat} (below : Nat) (h : v < extent) : v * below + below ≤ extent * below := by
  rw [← Nat.succ_mul]
  exact Nat.mul_le_mul_right below h

theorem encode_lt (h : Inside shape vs) : encode shape vs < product shape := by
  induction h with
  | nil => exact Nat.one_pos
  | @cons v extent vs shape hv _ ih =>
    have hdigit := digit_le (product shape) (show v.toNat < extent by omega)
    rw [encode, product_cons]
    omega

theorem decode_encode (h : Inside shape vs) : decode shape (encode shape vs) = vs := by
  induction h with
  | nil => rfl
  | @cons v extent vs shape hv hvs ih =>
    have hlt := encode_lt hvs
    have hpos := Nat.zero_lt_of_lt hlt
    have hdiv : (v.toNat * product shape + encode shape vs) / product shape = v.toNat := by
      rw [Nat.mul_comm, Nat.mul_add_div hpos, Nat.div_eq_of_lt hlt, Nat.add_zero]
    have hmod : (v.toNat * product shape + encode shape vs) % product shape = encode shape vs := by
      rw [Nat.mul_comm, Nat.mul_add_mod, Nat.mod_eq_of_lt hlt]
    rw [encode, decode, hdiv, hmod, ih, Int.toNat_of_nonneg hv.1]

theorem inside_decode {n : Nat} (h : n < product shape) : Inside shape (decode shape n) := by
  induction shape generalizing n with
  | nil => exact .nil
  | cons extent shape ih =>
    have hpos : 0 < product shape := Nat.pos_of_mul_pos_left (Nat.zero_lt_of_lt h)
    refine .cons ⟨Int.natCast_nonneg _, ?_⟩ (ih (Nat.mod_lt n hpos))
    exact Int.ofNat_lt.2 ((Nat.div_lt_iff_lt_mul hpos).2 h)

theorem encode_decode {n : Nat} (h : n < product shape) : encode shape (decode shape n) = n := by
  induction shape generalizing n with
  | nil => exact (Nat.lt_one_iff.1 h).symm
  | cons extent shape ih =>
    have hpos : 0 < product shape := Nat.pos_of_mul_pos_left (Nat.zero_lt_of_lt h)
    rw [decode, encode, Int.toNat_natCast, ih (Nat.mod_lt n hpos), Nat.mul_comm]
    exact Nat.div_add_mod n (product shape)

theorem offsetFrom_eq_encode (h : Inside shape vs) (total : Nat) :
    offsetFrom total (vs.zip (shape.zip (rowMajorStrides shape))) = some (total + encode shape vs) := by
  induction h generalizing total with
  | nil => rfl
  | @cons v extent vs shape hv _ ih =>
    rw [rowMajorStrides, List.zip_cons_cons, List.zip_cons_cons, offsetFrom, if_neg (by omega), ih, encode,
      Nat.add_assoc]

end Digits

section Words

def wordProduct : Int → List Nat → Checked Int
  | total, [] => .ok total
  | total, extent :: shape => do
    let total ← Word.mul total extent
    wordProduct total shape

def wordStrides : List Nat → Checked (List Int)
  | [] => .ok []
  | [_] => .ok [1]
  | _ :: next :: shape => do
    let strides ← wordStrides (next :: shape)
    let stride ← Word.mul (strides.headD 1) next
    return stride :: strides

def wordOffset (env : Env) : Int → List (KernelForm × Nat × Nat) → Checked (Option Int)
  | total, [] => .ok (some total)
  | total, (f, extent, stride) :: rest => do
    let v ← f.eval env
    if v < 0 ∨ (extent : Int) ≤ v then return none
    else do
      let step ← Word.mul v stride
      let total ← Word.add total step
      wordOffset env total rest

variable {shape : List Nat} (hpos : ∀ n ∈ shape, 0 < n)
include hpos

theorem wordProduct_eq (total : Nat) (h : total * product shape ≤ 9223372036854775807) :
    wordProduct total shape = .ok ((total * product shape : Nat) : Int) := by
  induction shape generalizing total with
  | nil => simp [wordProduct, product]
  | cons extent shape ih =>
    obtain ⟨-, hpos⟩ := List.forall_mem_cons.1 hpos
    rw [product_cons, ← Nat.mul_assoc] at h ⊢
    have hfirst : total * extent ≤ 9223372036854775807 :=
      Nat.le_trans (Nat.le_mul_of_pos_right _ (product_pos hpos)) h
    rw [wordProduct, Word.mul_natCast hfirst, ok_bind]
    exact ih hpos (total * extent) h

theorem wordStrides_eq (h : product shape ≤ 9223372036854775807) :
    wordStrides shape = .ok ((rowMajorStrides shape).map fun n => (n : Int)) := by
  fun_induction wordStrides shape with
  | case1 => rfl
  | case2 => rfl
  | case3 extent next shape ih =>
    obtain ⟨hextent, hpos⟩ := List.forall_mem_cons.1 hpos
    have hrest : product (next :: shape) ≤ 9223372036854775807 :=
      Nat.le_trans (Nat.le_mul_of_pos_left _ hextent) h
    rw [ih hpos hrest, ok_bind]
    have hhead : ((rowMajorStrides (next :: shape)).map fun n => (n : Int)).headD 1 = (product shape : Int) := rfl
    rw [product_cons, Nat.mul_comm] at hrest
    rw [hhead, Word.mul_natCast hrest, ok_bind, Nat.mul_comm]
    rfl

theorem wordOffset_eq (env : Env) (forms : List KernelForm) (total : Nat)
    (h : total + product shape ≤ 9223372036854775807) :
    wordOffset env total (forms.zip (shape.zip (rowMajorStrides shape))) =
      (Place.offsetFrom env total (forms.zip (shape.zip (rowMajorStrides shape)))).map
        (Option.map fun n : Nat => (n : Int)) := by
  induction forms generalizing shape total with
  | nil => rfl
  | cons f forms ih =>
    cases shape with
    | nil => rfl
    | cons extent shape =>
      obtain ⟨-, hpos⟩ := List.forall_mem_cons.1 hpos
      rw [rowMajorStrides, List.zip_cons_cons, List.zip_cons_cons, wordOffset, Place.offsetFrom]
      cases f.eval env with
      | error e => rfl
      | ok v =>
        rw [ok_bind, ok_bind]
        split
        · rfl
        · next hin =>
          obtain ⟨m, rfl⟩ := Int.eq_ofNat_of_zero_le (show 0 ≤ v by omega)
          -- the product and the sum of a step stay below the volume, so the checks never strike
          have hdigit := digit_le (product shape) (show m < extent by omega)
          rw [product_cons] at h
          have hmul : m * product shape ≤ 9223372036854775807 := by omega
          have hadd : total + m * product shape ≤ 9223372036854775807 := by omega
          rw [Word.mul_natCast hmul, ok_bind, Word.add_natCast hadd, ok_bind, Int.toNat_natCast]
          exact ih hpos _ (by omega)

end Words

end RowMajor

namespace Buffer

structure Sized (b : Buffer) : Prop where
  positive : ∀ n ∈ b.shape, 0 < n
  volume : b.volume ≤ 9223372036854775807

def offsetAt (b : Buffer) (vs : List Int) : Option Nat := offsetFrom 0 (vs.zip (b.shape.zip b.strides))

def place (b : Buffer) (number : Nat) (forms : List KernelForm) : Place :=
  ⟨number, forms.zip (b.shape.zip b.strides)⟩

theorem offset_place {b : Buffer} {forms : List KernelForm} {env : Env} {vs : List Int}
    (h : KernelForm.evalAll env forms = .ok vs) (number : Nat) :
    (b.place number forms).offset env = .ok (b.offsetAt vs) := by
  have hoffset (total : Nat) (rest : List (Nat × Nat)) :
      Place.offsetFrom env total (forms.zip rest) = .ok (offsetFrom total (vs.zip rest)) := by
    induction forms generalizing vs total rest with
    | nil =>
      cases h
      rfl
    | cons f forms ih =>
      obtain ⟨v, vs, hv, hvs, rfl⟩ := bind₂_eq_ok.1 h
      cases rest with
      | nil => rfl
      | cons r rest =>
        rw [List.zip_cons_cons, List.zip_cons_cons, Place.offsetFrom, hv, ok_bind, offsetFrom]
        split
        · rfl
        · exact ih hvs _ _
  exact hoffset 0 _

theorem offset_lt_volume {b : Buffer} {forms : List KernelForm} (hlength : forms.length = b.shape.length)
    {number n : Nat} {env : Env} (h : (b.place number forms).offset env = .ok (some n)) : n < b.volume := by
  have hvalue := Numbering.offsetFrom_eq_ok h
  have hvalues : (b.place number forms).indices.map (fun i => (i.1.value env, i.2)) =
      (forms.map fun f => f.value env).zip (b.shape.zip b.strides) := by
    rw [place, List.zip_map_left]
    rfl
  rw [hvalues] at hvalue
  have hlt := offsetFrom_lt (by simpa using hlength) hvalue.symm
  rwa [Nat.zero_add] at hlt

/-- Every index vector inside the extents has a cell of its own, every cell has one, and vectors outside have none.
Computed in words, step by step, the volume, the strides and all offsets are what they are without bounds. -/
structure Addressable (b : Buffer) : Prop where
  volume : RowMajor.wordProduct 1 b.shape = .ok (b.volume : Int)
  strides : RowMajor.wordStrides b.shape = .ok (b.strides.map fun n => (n : Int))
  words : ∀ number forms env, RowMajor.wordOffset env 0 (b.place number forms).indices =
    ((b.place number forms).offset env).map (Option.map fun n : Nat => (n : Int))
  offset : ∀ number forms env vs, KernelForm.evalAll env forms = .ok vs →
    (b.place number forms).offset env = .ok (b.offsetAt vs)
  inside : ∀ vs, RowMajor.Inside b.shape vs → ∃ n, b.offsetAt vs = some n ∧ n < b.volume
  outside : ∀ vs, vs.length = b.shape.length → ¬ RowMajor.Inside b.shape vs → b.offsetAt vs = none
  injective : ∀ vs ws, RowMajor.Inside b.shape vs → RowMajor.Inside b.shape ws →
    b.offsetAt vs = b.offsetAt ws → vs = ws
  surjective : ∀ n, n < b.volume → ∃ vs, RowMajor.Inside b.shape vs ∧ b.offsetAt vs = some n

theorem offsetAt_of_inside {b : Buffer} {vs : List Int} (h : RowMajor.Inside b.shape vs) :
    b.offsetAt vs = some (RowMajor.encode b.shape vs) := by
  rw [offsetAt, strides, RowMajor.offsetFrom_eq_encode h, Nat.zero_add]

theorem Sized.addressable {b : Buffer} (h : b.Sized) : b.Addressable where
  volume := by
    have hproduct := RowMajor.wordProduct_eq h.positive 1 (by rw [Nat.one_mul]; exact h.volume)
    rwa [Nat.one_mul] at hproduct
  strides := RowMajor.wordStrides_eq h.positive h.volume
  words number forms env :=
    RowMajor.wordOffset_eq h.positive env forms 0 (by rw [Nat.zero_add]; exact h.volume)
  offset number forms env vs hvs := offset_place hvs number
  inside vs hvs := ⟨_, offsetAt_of_inside hvs, RowMajor.encode_lt hvs⟩
  outside vs hlength hvs := by
    rw [← Option.not_isSome_iff_eq_none]
    exact fun hsome => hvs ((offsetFrom_isSome hlength 0).1 hsome)
  injective vs ws hvs hws hsame := by
    rw [offsetAt_of_inside hvs, offsetAt_of_inside hws, Option.some.injEq] at hsame
    rw [← RowMajor.decode_encode hvs, hsame, RowMajor.decode_encode hws]
  surjective n hn := by
    have hinside := RowMajor.inside_decode hn
    exact ⟨_, hinside, by rw [offsetAt_of_inside hinside, RowMajor.encode_decode hn]⟩

end Buffer

namespace Description

theorem positive_of_extents {s : Scope} {buffer : String} {dim : Nat} {texts : List String} {shape : List Nat}
    (h : extents s buffer dim texts = .ok shape) : ∀ n ∈ shape, 0 < n := by
  induction texts generalizing dim shape with
  | nil =>
    cases h
    exact List.forall_mem_nil _
  | cons text texts ih =>
    obtain ⟨n, ns, hn, hns, rfl⟩ := bind₂_eq_ok.1 h
    refine List.forall_mem_cons.2 ⟨?_, ih hns⟩
    obtain ⟨f, -, hn⟩ := bind_eq_ok.1 hn
    split at hn
    · split at hn
      · next hpos =>
        cases hn
        simp only [Bool.and_eq_true, decide_eq_true_eq] at hpos
        omega
      · cases hn
    · cases hn

theorem sized_of_resolveBuffer {params : List (String × Int)} {d : Buffer} {b : LoopNest.Buffer}
    (h : resolveBuffer params d = .ok b) : b.Sized := by
  obtain ⟨shape, hshape, h⟩ := bind_eq_ok.1 h
  split at h
  · next hvolume =>
    cases h
    exact ⟨positive_of_extents hshape, hvolume⟩
  · cases h

theorem sized_of_resolveBuffers {params : List (String × Int)} {done bs : List LoopNest.Buffer} {ds : List Buffer}
    (hdone : ∀ b ∈ done, b.Sized) (h : resolveBuffers params done ds = .ok bs) : ∀ b ∈ bs, b.Sized := by
  induction ds generalizing done with
  | nil =>
    cases h
    exact hdone
  | cons d ds ih =>
    obtain ⟨first, hfirst, h⟩ := bind_eq_ok.1 h
    split at h
    · cases h
    · exact ih (List.forall_mem_append.2 ⟨hdone, List.forall_mem_singleton.2 (sized_of_resolveBuffer hfirst)⟩) h

theorem sized_of_build {d : Description} {p : Program} (h : d.build = .ok p) : ∀ b ∈ p.buffers, b.Sized := by
  rw [build] at h
  split at h
  · cases h
  · obtain ⟨buffers, hbuffers, h⟩ := bind_eq_ok.1 h
    obtain ⟨computations, -, h⟩ := bind_eq_ok.1 h
    cases h
    exact sized_of_resolveBuffers (List.forall_mem_nil _) hbuffers

end Description

end LoopNest
