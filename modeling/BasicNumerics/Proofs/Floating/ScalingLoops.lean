/-
The loops that scale by ten, step by step.

Building a value from a decimal takes as many steps as its exponent says, and leaves early far
outside of the range; reading off digits takes steps until a test is passed. Here these loops are
runs (`Runs`), with no bound on their steps put in from outside: that there is a run says that the
loop ends, and a run keeps every value that a step was given.

Ten times a value goes through the adder, which takes an exponent of zero for the number zero. Of
the values that are multiplied none comes near it (`scaling_sound`): a mantissa starts at the
exponent of a whole number and only goes up, and digits are read off by steps in one direction
only, so a value that is scaled up was not scaled down before.
-/
import BasicNumerics.Proofs.Floating.Reading

set_option autoImplicit false

namespace BasicNumerics

open Rounding

/-! ## Runs of a loop -/

variable {α : Type}

/-- The runs of a loop that is at `a` after `i` steps: it takes the rest of them at the values
`seen`, in this order, and ends at `b`. It goes on while `again` holds, and is left after a step
whose result is `out`. -/
inductive Runs (step : α → α) (again : ℕ → α → Prop) (out : α → Prop) :
    ℕ → α → List α → α → Prop
  | ends {i : ℕ} {a : α} (h : ¬again i a) : Runs step again out i a [] a
  | leaves {i : ℕ} {a : α} (h : again i a) (hout : out (step a)) :
      Runs step again out i a [a] (step a)
  | next {i : ℕ} {a b : α} {seen : List α} (h : again i a) (hin : ¬out (step a))
      (rest : Runs step again out (i + 1) (step a) seen b) : Runs step again out i a (a :: seen) b

/-- At most `n` steps, left early once a result is `out`. -/
def Counted (step : α → α) (out : α → Prop) (n : ℕ) (a : α) (seen : List α) (b : α) : Prop :=
  Runs step (fun i _ => i < n) out 0 a seen b

/-- Steps until a value passes the test. -/
def Until (step : α → α) (stop : α → Prop) (a : α) (seen : List α) (b : α) : Prop :=
  Runs step (fun _ c => ¬stop c) (fun _ => False) 0 a seen b

namespace Runs

variable {step : α → α} {again : ℕ → α → Prop} {out : α → Prop} {i : ℕ} {a b : α}
  {seen : List α}

/-- **A loop has one run at most.** -/
theorem unique (h : Runs step again out i a seen b) :
    ∀ {others c}, Runs step again out i a others c → others = seen ∧ c = b := by
  -- the tests are about the same value, so the other run starts with the same step
  induction h with
  | ends hend =>
    intro others c h'
    cases h' with
    | ends => exact ⟨rfl, rfl⟩
    | leaves h => exact absurd h hend
    | next h => exact absurd h hend
  | leaves hagain hout =>
    intro others c h'
    cases h' with
    | ends hend => exact absurd hagain hend
    | leaves => exact ⟨rfl, rfl⟩
    | next _ hin => exact absurd hout hin
  | next hagain hin _ ih =>
    intro others c h'
    cases h' with
    | ends hend => exact absurd hagain hend
    | leaves _ hout => exact absurd hout hin
    | next _ _ rest =>
      obtain ⟨rfl, rfl⟩ := ih rest
      exact ⟨rfl, rfl⟩

/-- **What every step keeps holds all along a run.** -/
theorem invariant (ok : α → Prop) (hstep : ∀ {c}, ok c → ok (step c))
    (h : Runs step again out i a seen b) (ha : ok a) : (∀ c ∈ seen, ok c) ∧ ok b := by
  induction h with
  | ends => exact ⟨by simp, ha⟩
  | leaves => exact ⟨by simpa using ha, hstep ha⟩
  | next _ _ _ ih =>
    obtain ⟨hseen, hb⟩ := ih (hstep ha)
    exact ⟨List.forall_mem_cons.mpr ⟨ha, hseen⟩, hb⟩

/-- Unless nothing was done, the result is that of a step which the loop went on to. -/
theorem exists_last (h : Runs step again out i a seen b) (hne : seen ≠ []) :
    ∃ j, ∃ c ∈ seen, again j c ∧ b = step c := by
  induction h with
  | ends => exact absurd rfl hne
  | @leaves i a hagain _ => exact ⟨i, a, List.mem_singleton_self a, hagain, rfl⟩
  | @next i a b seen hagain _ rest ih =>
    rcases eq_or_ne seen [] with rfl | hmore
    · -- nothing follows, so this step is the last one
      cases rest
      exact ⟨i, a, List.mem_singleton_self a, hagain, rfl⟩
    · obtain ⟨j, c, hc, hgo, hb⟩ := ih hmore
      exact ⟨j, c, List.mem_cons_of_mem a hc, hgo, hb⟩

/-- A recursion on the steps that are left is a run of the counted loop: with those taken they
add up to `m` all along. -/
theorem exists_of_recursion (loop : ℕ → α → α) (out : α → Prop) [DecidablePred out]
    (hzero : ∀ c, loop 0 c = c)
    (hsucc : ∀ n c, loop (n + 1) c = if out (step c) then step c else loop n (step c)) {m : ℕ}
    (n : ℕ) : ∀ {i : ℕ} (c : α), i + n = m →
      ∃ seen, Runs step (fun j _ => j < m) out i c seen (loop n c) := by
  induction n with
  | zero =>
    intro i c hm
    rw [hzero]
    exact ⟨[], .ends (by omega)⟩
  | succ n ih =>
    intro i c hm
    rw [hsucc]
    by_cases hout : out (step c)
    · rw [if_pos hout]
      exact ⟨[c], .leaves (by omega) hout⟩
    · rw [if_neg hout]
      obtain ⟨seen, hrest⟩ := ih (i := i + 1) (step c) (by omega)
      exact ⟨c :: seen, .next (by omega) hout hrest⟩

end Runs

/-- Stopping at the first value that passes the test is a run, with as many steps. -/
theorem StopsAt.exists_runs {step : α → α} {stop : α → Prop} {b : α} {n : ℕ} : ∀ {i : ℕ} {a : α},
    StopsAt step stop a (b, n) →
      ∃ seen, Runs step (fun _ c => ¬stop c) (fun _ => False) i a seen b ∧ seen.length = n := by
  induction n with
  | zero =>
    intro i a h
    obtain rfl : b = a := h.eq_iterate
    exact ⟨[], .ends (not_not.mpr h.stops), rfl⟩
  | succ n ih =>
    intro i a h
    have htail : StopsAt step stop (step a) (b, n) :=
      ⟨h.eq_iterate, h.stops, fun k hk => h.first (k + 1) (Nat.succ_lt_succ hk)⟩
    obtain ⟨seen, hrest, hlen⟩ := ih (i := i + 1) htail
    have hgo : ¬stop a := h.first 0 n.succ_pos
    exact ⟨a :: seen, .next hgo not_false hrest, congrArg Nat.succ hlen⟩

namespace Scratch

variable {p : Precision} {d low high a b : Scratch p} {ups downs : List (Scratch p)}

/-! ## Sound steps -/

/-- A value is multiplied by ten as it should be: it fills the working width, neither eight times
nor twice it is taken for zero, and the step misses by a unit of its result at most. -/
structure SoundTenfold (d : Scratch p) : Prop where
  aligned : d.Aligned
  one_le_exp : 1 ≤ d.exp
  no_zero : d.exp + 3 ≠ 0 ∧ d.exp + 1 ≠ 0
  both_terms : d.tenfold
    = (addOrdered ({ d with exp := d.exp + 1 } : Scratch p) { d with exp := d.exp + 3 }).align
  result_aligned : d.tenfold.Aligned
  result_neg : d.tenfold.neg = d.neg
  result_near : |d.tenfold.magnitude - 10 * d.magnitude| ≤ d.tenfold.unit

/-- A tenth of a value is taken as it should be. -/
structure SoundTenth (d : Scratch p) : Prop where
  aligned : d.Aligned
  result_aligned : d.tenth.Aligned
  result_neg : d.tenth.neg = d.neg
  result_near : |d.tenth.magnitude - d.magnitude / 10| ≤ d.tenth.unit

theorem soundTenfold (h : d.Aligned) (hexp : 0 < d.exp) : SoundTenfold d where
  aligned := h
  one_le_exp := hexp
  no_zero := by omega
  both_terms := by
    -- past both shortcuts of the adder, and with twice the value as the smaller term
    rw [tenfold, add, if_neg (by simp only; omega), if_neg (by simp only; omega),
      if_pos (by simp only; omega)]
  result_aligned := (tenfold_spec h hexp).1
  result_neg := neg_tenfold hexp
  result_near := (tenfold_spec h hexp).2.2.2

theorem soundTenth (h : d.Aligned) : SoundTenth d where
  aligned := h
  result_aligned := (tenth_spec h).1
  result_neg := neg_tenth d
  result_near := (tenth_spec h).2.2.2

/-- The values that the steps of a scaling were given, those up and those down. -/
structure Steps (p : Precision) where
  ups : List (Scratch p)
  downs : List (Scratch p)

structure Steps.Sound (steps : Steps p) : Prop where
  ups : ∀ d ∈ steps.ups, SoundTenfold d
  downs : ∀ d ∈ steps.downs, SoundTenth d

section

variable {again : ℕ → Scratch p → Prop} {out : Scratch p → Prop} {i : ℕ}

/-- **A run up is sound from an aligned value of positive exponent.** -/
theorem soundTenfold_of_runs (h : Runs tenfold again out i d ups b) (hd : d.Aligned)
    (hexp : 0 < d.exp) : (∀ e ∈ ups, SoundTenfold e) ∧ b.Aligned := by
  obtain ⟨hups, hb⟩ := h.invariant (fun e => e.Aligned ∧ 0 < e.exp) scales_tenfold.ok_step ⟨hd, hexp⟩
  exact ⟨fun e he => soundTenfold (hups e he).1 (hups e he).2, hb.1⟩

/-- **A run down is sound from an aligned value.** -/
theorem soundTenth_of_runs (h : Runs tenth again out i d downs b) (hd : d.Aligned) :
    (∀ e ∈ downs, SoundTenth e) ∧ b.Aligned := by
  obtain ⟨hdowns, hb⟩ := h.invariant Aligned scales_tenth.ok_step hd
  exact ⟨fun e he => soundTenth (hdowns e he), hb⟩

end

/-! ## Between two limits -/

/-- Two limits that fill the working width, one ten times the other. -/
structure TenApart (low high : Scratch p) : Prop where
  low_aligned : low.Aligned
  high_aligned : high.Aligned
  ten_times : high.magnitude = 10 * low.magnitude

/-- Steps down until `d` is below the upper limit, and then up until it is not below the lower
one. -/
def Between (low high d : Scratch p) (steps : Steps p) (b : Scratch p) : Prop :=
  ∃ a, Until tenth (fun e => e.lt high = true) d steps.downs a ∧
    Until tenfold (fun e => e.lt low = false) a steps.ups b

/-- What was scaled down at all is not below the lower limit: its last step came from above the
upper one. -/
theorem not_lt_of_downs (hten : TenApart low high) (hd : d.Aligned)
    (h : Until tenth (fun e => e.lt high = true) d downs a) (hsome : downs ≠ []) :
    a.lt low = false := by
  obtain ⟨-, e, he, hge, rfl⟩ := h.exists_last hsome
  have hea := ((soundTenth_of_runs h hd).1 e he).aligned
  exact tenth_not_lt hten.low_aligned hten.high_aligned hten.ten_times hea (by simpa using hge)

namespace Between

variable {steps others : Steps p} {c : Scratch p}

/-- **One loop at most does something.** -/
theorem one_loop (hten : TenApart low high) (hd : d.Aligned) (h : Between low high d steps b) :
    steps.downs = [] ∨ steps.ups = [] := by
  obtain ⟨a, hdown, hup⟩ := h
  rcases eq_or_ne steps.downs [] with hnone | hsome
  · exact Or.inl hnone
  · have hstop := not_lt_of_downs hten hd hdown hsome
    -- the loop up may end at once, and has no other run
    exact Or.inr (hup.unique (.ends (not_not.mpr hstop))).1.symm

/-- **Both loops are sound:** steps up are taken only from the value itself. -/
theorem sound (hten : TenApart low high) (hd : d.Aligned) (hexp : 0 < d.exp)
    (h : Between low high d steps b) : steps.Sound := by
  have hone := h.one_loop hten hd
  obtain ⟨a, hdown, hup⟩ := h
  refine ⟨?_, (soundTenth_of_runs hdown hd).1⟩
  rcases hone with hnone | hnone
  · -- no step down, so the way up starts at `d`
    rw [hnone] at hdown
    cases hdown
    exact (soundTenfold_of_runs hup hd hexp).1
  · simp [hnone]

theorem unique (h : Between low high d steps b) (h' : Between low high d others c) :
    others = steps ∧ c = b := by
  obtain ⟨a, hdown, hup⟩ := h
  obtain ⟨a', hdown', hup'⟩ := h'
  obtain ⟨hdowns, rfl⟩ := hdown.unique hdown'
  obtain ⟨hups, rfl⟩ := hup.unique hup'
  rw [Steps.mk.injEq]
  exact ⟨⟨hups, hdowns⟩, rfl⟩

end Between

/-- **Both loops end,** with what `scaleBetween` gives. -/
theorem exists_between (hten : TenApart low high) (hd : d.Aligned) (hexp : 0 < d.exp) :
    ∃ steps, Between low high d steps (scaleBetween low high d).1 ∧
      (scaleBetween low high d).2 = (steps.downs.length : ℤ) - steps.ups.length := by
  cases scaleBetween_scaledOnce hten.low_aligned hten.high_aligned hten.ten_times hd hexp with
  | down n hle hpos hpower hrun =>
    obtain ⟨downs, hdown, rfl⟩ := hrun.exists_runs (i := 0)
    -- the loop up has nothing left to do
    have hstop := not_lt_of_downs hten hd hdown (List.ne_nil_of_length_pos hpos)
    refine ⟨⟨[], downs⟩, ⟨_, hdown, .ends (not_not.mpr hstop)⟩, ?_⟩
    simp [hpower]
  | up n hlt hpower hrun =>
    obtain ⟨ups, hup, rfl⟩ := hrun.exists_runs (i := 0)
    have hstop := (lt_iff_magnitude_lt hd hten.high_aligned).mpr hlt
    refine ⟨⟨ups, []⟩, ⟨d, .ends (not_not.mpr hstop), hup⟩, ?_⟩
    simp [hpower]

/-! ## From a whole mantissa -/

theorem align_ofInt_mem {m : ℤ} (hm : m ≠ 0) :
    (ofInt p m).align.Aligned ∧ 0 < (ofInt p m).align.exp := by
  have hman : (ofInt p m).man ≠ 0 := Int.natAbs_ne_zero.mpr hm
  have hbits := bitLength_pos hman
  -- the exponent counts the bits of the whole number, however many there are
  have hexp : (ofInt p m).align.exp = 128 + bitLength (ofInt p m).man := by
    rw [align_exp hman]
    show unitExp p + bitLength (ofInt p m).man - p.width = _
    rw [unitExp_eq]
    ring
  exact ⟨align_aligned hman, by omega⟩

end Scratch

namespace Floating

open Scratch

variable {p : Precision} {d : Decimal} {x : Floating p} {digits : Option ℕ}
  {steps others : Steps p}

/-! ## Building from a decimal -/

/-- The runs that build a value: nothing is scaled for a mantissa of zero; any other is multiplied
by ten for a positive exponent and divided by it for a negative one, and then stored. -/
inductive BuildsBy (d : Decimal) : Steps p → Outcome (Floating p) (Floating p) → Prop
  | zero (h : d.mantissa = 0) : BuildsBy d ⟨[], []⟩ (.ok .zero)
  | scaled {steps : Steps p} {a w : Scratch p} (h : d.mantissa ≠ 0)
      (up : Counted tenfold (fun e => 0x1ff < e.exp) d.exponent.toNat
        (Scratch.ofInt p d.mantissa).align steps.ups a)
      (down : Counted tenth (fun e => e.exp < -0x1ff) (-d.exponent).toNat a steps.downs w) :
      BuildsBy d steps w.pack

/-- **Building ends,** with what `ofDecimal` gives. -/
theorem exists_buildsBy (d : Decimal) : ∃ steps : Steps p, BuildsBy d steps (ofDecimal d) := by
  by_cases hm : d.mantissa = 0
  · rw [ofDecimal, if_pos hm]
    exact ⟨_, .zero hm⟩
  · rw [ofDecimal, if_neg hm]
    obtain ⟨ups, hup⟩ := Runs.exists_of_recursion (timesTen (p := p)) (fun e => 0x1ff < e.exp)
      (fun _ => rfl) (fun _ _ => rfl) d.exponent.toNat (Scratch.ofInt p d.mantissa).align
      (Nat.zero_add _)
    obtain ⟨downs, hdown⟩ := Runs.exists_of_recursion (overTen (p := p)) (fun e => e.exp < -0x1ff)
      (fun _ => rfl) (fun _ _ => rfl) (-d.exponent).toNat
      (timesTen d.exponent.toNat (Scratch.ofInt p d.mantissa).align) (Nat.zero_add _)
    exact ⟨⟨ups, downs⟩, .scaled hm hup hdown⟩

theorem BuildsBy.unique {r r' : Outcome (Floating p) (Floating p)} (h : BuildsBy d steps r)
    (h' : BuildsBy d others r') : r' = r := by
  cases h with
  | zero hm =>
    cases h' with
    | zero => rfl
    | scaled hm' => exact absurd hm hm'
  | scaled hm hup hdown =>
    cases h' with
    | zero hm' => exact absurd hm' hm
    | scaled _ hup' hdown' =>
      obtain ⟨-, rfl⟩ := hup.unique hup'
      obtain ⟨-, rfl⟩ := hdown.unique hdown'
      rfl

theorem BuildsBy.sound {r : Outcome (Floating p) (Floating p)} (h : BuildsBy d steps r) :
    steps.Sound := by
  cases h with
  | zero => constructor <;> simp
  | scaled hm hup hdown =>
    obtain ⟨hs, hexp⟩ := align_ofInt_mem (p := p) hm
    obtain ⟨hups, ha⟩ := soundTenfold_of_runs hup hs hexp
    -- on the way down the exponent may pass zero: a quotient does not look at it
    exact ⟨hups, (soundTenth_of_runs hdown ha).1⟩

/-! ## Reading off digits -/

/-- The upper limit for a count of digits, and the lower one. -/
def highLimit (p : Precision) (digits : Option ℕ) : Scratch p :=
  (ofInt (10 ^ digitCount p digits : ℕ) : Floating p).unpack

def lowLimit (p : Precision) (digits : Option ℕ) : Scratch p :=
  (ofInt (10 ^ digitCount p digits / 10 : ℕ) : Floating p).unpack

theorem tenApart_limits (p : Precision) (digits : Option ℕ) :
    TenApart (lowLimit p digits) (highLimit p digits) := by
  obtain ⟨t, hcount, ht⟩ := exists_digitCount p digits
  refine ⟨unpack_aligned _, unpack_aligned _, ?_⟩
  rw [highLimit, lowLimit, hcount, Nat.pow_succ, Nat.mul_div_cancel _ (by norm_num), ← Nat.pow_succ]
  exact magnitude_ten_pow_succ ht

/-- The digits that are read off a value once it is scaled to `b`, ten to the `s` away. -/
def digitsOf (x : Floating p) (digits : Option ℕ) (b : Scratch p) (s : ℤ) : Decimal :=
  let top := 10 ^ digitCount p digits
  let n := b.nearestNat
  if top ≤ n then ⟨if x.neg then -((n / 10 : ℕ) : ℤ) else (n / 10 : ℕ), s + 1⟩
  else ⟨if x.neg then -(n : ℤ) else n, s⟩

/-- The runs that read off digits: zero is not scaled; any other value is scaled between the
limits, without its sign, counting the steps. -/
inductive ReadsBy (x : Floating p) (digits : Option ℕ) : Steps p → Decimal → Prop
  | zero (h : x.isZero = true) : ReadsBy x digits ⟨[], []⟩ ⟨0, 0⟩
  | scaled {steps : Steps p} {b : Scratch p} (h : x.isZero = false)
      (between : Between (lowLimit p digits) (highLimit p digits) { x.unpack with neg := false }
        steps b) :
      ReadsBy x digits steps (x.digitsOf digits b (steps.downs.length - steps.ups.length))

theorem toDecimal_eq_digitsOf (hx : x.isZero = false) :
    let r := scaleBetween (lowLimit p digits) (highLimit p digits) { x.unpack with neg := false }
    x.toDecimal digits = x.digitsOf digits r.1 r.2 := by
  intro r
  rw [toDecimal, if_neg (by simp [hx]), digitsOf]
  by_cases hover : 10 ^ digitCount p digits ≤ r.1.nearestNat
  · rw [if_pos hover]
    simp only [r, lowLimit, highLimit] at hover ⊢
    simp only [if_pos hover]
  · rw [if_neg hover]
    simp only [r, lowLimit, highLimit] at hover ⊢
    simp only [if_neg hover]

/-- **Reading off ends,** with what `toDecimal` gives. -/
theorem exists_readsBy (x : Floating p) (digits : Option ℕ) :
    ∃ steps, ReadsBy x digits steps (x.toDecimal digits) := by
  cases hx : x.isZero with
  | true =>
    rw [toDecimal, if_pos hx]
    exact ⟨_, .zero hx⟩
  | false =>
    obtain ⟨steps, hbetween, hpower⟩ := exists_between (tenApart_limits p digits)
      x.unsigned_aligned (exponent_mem hx).1
    refine ⟨steps, ?_⟩
    rw [toDecimal_eq_digitsOf hx]
    simp only [hpower]
    exact .scaled hx hbetween

theorem ReadsBy.unique {r r' : Decimal} (h : ReadsBy x digits steps r)
    (h' : ReadsBy x digits others r') : r' = r := by
  cases h with
  | zero hx =>
    cases h' with
    | zero => rfl
    | scaled hx' => simp [hx] at hx'
  | scaled hx hbetween =>
    cases h' with
    | zero hx' => simp [hx] at hx'
    | scaled _ hbetween' =>
      obtain ⟨rfl, rfl⟩ := hbetween.unique hbetween'
      rfl

theorem ReadsBy.sound {r : Decimal} (h : ReadsBy x digits steps r) :
    steps.Sound ∧ (steps.downs = [] ∨ steps.ups = []) := by
  cases h with
  | zero => exact ⟨by constructor <;> simp, Or.inl rfl⟩
  | scaled hx hbetween =>
    have hten := tenApart_limits p digits
    exact ⟨hbetween.sound hten x.unsigned_aligned (exponent_mem hx).1,
      hbetween.one_loop hten x.unsigned_aligned⟩

/-! ## Both directions -/

/-- **The scaling steps are sound, and the loops end.** For every decimal, every value and every
count of digits:

* the loops that build the value end, in what `ofDecimal` gives, and those that read off the digits
  end, in what `toDecimal` gives;
* whatever run they take, each value that is multiplied by ten fills the working width and has an
  exponent of one at least, so neither term of the sum is taken for zero; each step gives a value
  that fills the width, by a unit of it at most off;
* of the two loops that read off digits, one at most does something. -/
theorem scaling_sound (d : Decimal) (x : Floating p) (digits : Option ℕ) :
    (∃ steps : Steps p, BuildsBy d steps (ofDecimal d)) ∧
    (∀ (steps : Steps p) r, BuildsBy d steps r → r = ofDecimal d ∧ steps.Sound) ∧
    (∃ steps, ReadsBy x digits steps (x.toDecimal digits)) ∧
    ∀ steps r, ReadsBy x digits steps r →
      r = x.toDecimal digits ∧ steps.Sound ∧ (steps.downs = [] ∨ steps.ups = []) := by
  obtain ⟨built, hbuilt⟩ := exists_buildsBy (p := p) d
  obtain ⟨read, hread⟩ := exists_readsBy x digits
  refine ⟨⟨built, hbuilt⟩, ?_, ⟨read, hread⟩, ?_⟩
  · intro steps r h
    exact ⟨hbuilt.unique h, h.sound⟩
  · intro steps r h
    exact ⟨hread.unique h, h.sound⟩

/-- Two steps up from a mantissa of seven, and one step down from thousand at three digits. -/
theorem scaling_sound_hundreds :
    let seven : Scratch .single := { exp := 131, man := 7 * 2 ^ 29, neg := false }
    let x : Single := ofWord 0x8A7A0000
    let thousand : Scratch .single := { x.unpack with neg := false }
    BuildsBy ⟨7, 2⟩ ⟨[seven, seven.tenfold], []⟩ (.ok (ofInt 700 : Single)) ∧
      ofDecimal ⟨7, 2⟩ = .ok (ofInt 700 : Single) ∧ SoundTenfold seven.tenfold ∧
      ReadsBy x (some 3) ⟨[], [thousand]⟩ ⟨100, 1⟩ ∧ x.toDecimal (some 3) = ⟨100, 1⟩ ∧
      SoundTenth thousand := by
  intro seven x thousand
  obtain ⟨-, hbuild, -, hread⟩ := scaling_sound ⟨7, 2⟩ x (some 3)
  have hseven : (Scratch.ofInt .single 7).align = seven := by decide +kernel
  have hup : Counted tenfold (fun e => 0x1ff < e.exp) 2 seven [seven, seven.tenfold]
      seven.tenfold.tenfold :=
    .next (by decide) (by decide +kernel) (.next (by decide) (by decide +kernel) (.ends (by decide)))
  have hbuilt : BuildsBy ⟨7, 2⟩ ⟨[seven, seven.tenfold], []⟩ (.ok (ofInt 700 : Single)) := by
    have hpack : seven.tenfold.tenfold.pack = .ok (ofInt 700 : Single) := by decide +kernel
    rw [← hpack]
    exact .scaled (by decide) (hseven ▸ hup) (.ends (by decide))
  have hdown : Between (lowLimit .single (some 3)) (highLimit .single (some 3)) thousand
      ⟨[], [thousand]⟩ thousand.tenth :=
    ⟨_, .next (by decide +kernel) not_false (.ends (by decide +kernel)), .ends (by decide +kernel)⟩
  have hdone : ReadsBy x (some 3) ⟨[], [thousand]⟩ ⟨100, 1⟩ := by
    have hdigits : x.digitsOf (some 3) thousand.tenth 1 = ⟨100, 1⟩ := by decide +kernel
    rw [← hdigits]
    exact .scaled rfl hdown
  obtain ⟨hbuilds, hups⟩ := hbuild _ _ hbuilt
  obtain ⟨hreads, hdowns, -⟩ := hread _ _ hdone
  exact ⟨hbuilt, hbuilds.symm, hups.ups _ (by simp), hdone, hreads.symm, hdowns.downs _ (by simp)⟩

end Floating

end BasicNumerics
