import Mathlib

/-!
# Calendar

Dates and times in UTC with microseconds, the instants they stand for and their ISO texts. A
text has fields of fixed width and a fraction that is left out at zero. Texts compare by code
point as their instants do.
-/

namespace Calendar

/-! ## Comparison field by field -/

/-- Two orderings that go on alike where the first part is equal. -/
theorem then_congr {o p q : Ordering} (h : o = .eq → p = q) : o.then p = o.then q := by
  cases o with
  | lt => rfl
  | eq => exact h rfl
  | gt => rfl

private theorem compareLex_append {α : Type*} {order : α → α → Ordering} {xs xs' : List α}
    (h : xs.length = xs'.length) (ys ys' : List α) :
    List.compareLex order (xs ++ ys) (xs' ++ ys') =
      (List.compareLex order xs xs').then (List.compareLex order ys ys') := by
  induction xs generalizing xs' with
  | nil =>
    rw [List.length_eq_zero_iff.mp h.symm]
    rfl
  | cons x xs ih =>
    cases xs' with
    | nil => cases h
    | cons x' xs' =>
      simp only [List.cons_append, List.compareLex_cons_cons, ih (Nat.succ.inj h)]
      rw [Ordering.then_assoc]

/-- A common first character decides nothing. -/
theorem compareLex_cons_self (c : Char) (ys ys' : List Char) :
    List.compareLex cmp (c :: ys) (c :: ys') = List.compareLex cmp ys ys' := by
  rw [List.compareLex_cons_cons, cmp_self_eq_eq, Ordering.eq_then]

private theorem compareLex_compares (xs ys : List Char) :
    (List.compareLex cmp xs ys).Compares xs ys := by
  induction xs generalizing ys with
  | nil =>
    cases ys with
    | nil => rfl
    | cons y ys => exact List.nil_lt_cons y ys
  | cons x xs ih =>
    cases ys with
    | nil => exact List.nil_lt_cons x xs
    | cons y ys =>
      rw [List.compareLex_cons_cons]
      have hhead := cmp_compares x y
      have htail := ih ys
      cases hx : cmp x y with
      | lt =>
        rw [hx] at hhead
        exact List.cons_lt_cons_iff.mpr (.inl hhead)
      | gt =>
        rw [hx] at hhead
        exact List.cons_lt_cons_iff.mpr (.inl hhead)
      | eq =>
        rw [hx] at hhead
        obtain rfl : x = y := hhead
        rw [Ordering.eq_then]
        cases hxs : List.compareLex cmp xs ys with
        | lt =>
          rw [hxs] at htail
          exact List.cons_lt_cons_iff.mpr (.inr ⟨rfl, htail⟩)
        | gt =>
          rw [hxs] at htail
          exact List.cons_lt_cons_iff.mpr (.inr ⟨rfl, htail⟩)
        | eq =>
          rw [hxs] at htail
          exact congrArg (x :: ·) htail

/-- Strings compare as their characters do, the first difference deciding. -/
theorem cmp_ofList (xs ys : List Char) :
    cmp (String.ofList xs) (String.ofList ys) = List.compareLex cmp xs ys := by
  apply Ordering.Compares.cmp_eq
  have h := compareLex_compares xs ys
  cases hxs : List.compareLex cmp xs ys with
  | lt =>
    rw [hxs] at h
    rw [Ordering.Compares, String.lt_iff_toList_lt, String.toList_ofList, String.toList_ofList]
    exact h
  | gt =>
    rw [hxs] at h
    rw [Ordering.Compares, gt_iff_lt, String.lt_iff_toList_lt, String.toList_ofList,
      String.toList_ofList]
    exact h
  | eq =>
    rw [hxs] at h
    exact congrArg String.ofList h

/-- A number in a mixed radix compares by its leading part first. -/
theorem cmp_mul_add {k b d : Nat} (hb : b < k) (hd : d < k) (a c : Nat) :
    cmp (a * k + b) (c * k + d) = (cmp a c).then (cmp b d) := by
  rcases lt_trichotomy a c with h | rfl | h
  · have hle : (a + 1) * k ≤ c * k := Nat.mul_le_mul_right k h
    rw [Nat.add_mul] at hle
    rw [h.cmp_eq_lt, Ordering.lt_then, cmp_eq_lt_iff]
    omega
  · rw [cmp_self_eq_eq, Ordering.eq_then]
    exact cmp_add_left _ b d
  · have hle : (c + 1) * k ≤ a * k := Nat.mul_le_mul_right k h
    rw [Nat.add_mul] at hle
    rw [h.cmp_eq_gt, Ordering.gt_then, cmp_eq_gt_iff]
    omega

/-! ## Pieces laid end to end -/

section Pieces

variable {start len : Nat → Nat} {lo : Nat}

private theorem start_le (hstart : ∀ i, lo ≤ i → start (i + 1) = start i + len i) {i j : Nat}
    (hi : lo ≤ i) (hij : i < j) : start i + len i ≤ start j := by
  induction j, hij using Nat.le_induction with
  | base => exact (hstart i hi).ge
  | succ j hj ih =>
    rw [hstart j (by omega)]
    omega

/-- Positions counted from one in consecutive pieces compare by the piece first. -/
theorem cmp_start (hstart : ∀ i, lo ≤ i → start (i + 1) = start i + len i) {i j p q : Nat}
    (hi : lo ≤ i) (hj : lo ≤ j) (hp : 0 < p ∧ p ≤ len i) (hq : 0 < q ∧ q ≤ len j) :
    cmp (start i + p) (start j + q) = (cmp i j).then (cmp p q) := by
  rcases lt_trichotomy i j with h | rfl | h
  · have hle := start_le hstart hi h
    rw [h.cmp_eq_lt, Ordering.lt_then, cmp_eq_lt_iff]
    omega
  · rw [cmp_self_eq_eq, Ordering.eq_then]
    exact cmp_add_left _ p q
  · have hle := start_le hstart hj h
    rw [h.cmp_eq_gt, Ordering.gt_then, cmp_eq_gt_iff]
    omega

/-- The piece a position lies in. -/
def piece (start : Nat → Nat) (hi x : Nat) : Nat := Nat.findGreatest (fun i => start i < x) hi

private theorem piece_spec {hi x : Nat} (hlohi : lo ≤ hi) (hlo : start lo < x)
    (hhi : x ≤ start (hi + 1)) :
    lo ≤ piece start hi x ∧ piece start hi x ≤ hi ∧
      start (piece start hi x) < x ∧ x ≤ start (piece start hi x + 1) := by
  have hle : piece start hi x ≤ hi := Nat.findGreatest_le hi
  refine ⟨Nat.le_findGreatest hlohi hlo, hle,
    Nat.findGreatest_spec (P := fun i => start i < x) hlohi hlo, ?_⟩
  rcases hle.eq_or_lt with heq | hlt
  · rwa [heq]
  · have hnot := Nat.findGreatest_is_greatest (P := fun i => start i < x)
      (Nat.lt_succ_self (piece start hi x)) hlt
    exact not_lt.mp hnot

end Pieces

/-! ## Digits -/

def digit (n : Nat) : Char := Char.ofNat (48 + n)

private theorem cmp_digit {a b : Nat} (ha : a < 10) (hb : b < 10) :
    cmp (digit a) (digit b) = cmp a b := by
  interval_cases a <;> interval_cases b <;> rfl

/-- `"%0kd" % n` for a number of at most `k` digits. -/
def pad : Nat → Nat → List Char
  | 0, _ => []
  | k + 1, n => digit (n / 10 ^ k % 10) :: pad k n

@[simp] private theorem length_pad (k n : Nat) : (pad k n).length = k := by
  induction k with
  | zero => rfl
  | succ k ih => rw [pad, List.length_cons, ih]

private theorem compareLex_pad (k a b : Nat) :
    List.compareLex cmp (pad k a) (pad k b) = cmp (a % 10 ^ k) (b % 10 ^ k) := by
  induction k with
  | zero => simp [pad, Nat.mod_one, List.compareLex_nil_nil]
  | succ k ih =>
    have hpos : 0 < 10 ^ k := by positivity
    have hsplit : ∀ n, n % 10 ^ (k + 1) = n / 10 ^ k % 10 * 10 ^ k + n % 10 ^ k := fun n => by
      rw [Nat.mod_pow_succ, Nat.mul_comm, Nat.add_comm]
    rw [pad, pad, List.compareLex_cons_cons, ih, hsplit a, hsplit b,
      cmp_mul_add (Nat.mod_lt a hpos) (Nat.mod_lt b hpos),
      cmp_digit (Nat.mod_lt _ (by decide)) (Nat.mod_lt _ (by decide))]

/-- A padded field is compared before what follows it. -/
theorem compareLex_pad_append {k a b : Nat} (ha : a < 10 ^ k) (hb : b < 10 ^ k)
    (ys ys' : List Char) :
    List.compareLex cmp (pad k a ++ ys) (pad k b ++ ys') =
      (cmp a b).then (List.compareLex cmp ys ys') := by
  rw [compareLex_append (by simp), compareLex_pad, Nat.mod_eq_of_lt ha, Nat.mod_eq_of_lt hb]

/-! ## Years and months -/

def isLeap (year : Nat) : Bool := year % 4 = 0 && (year % 100 ≠ 0 || year % 400 = 0)

def daysInYear (year : Nat) : Nat := if isLeap year then 366 else 365

def daysBeforeYear (year : Nat) : Nat :=
  (year - 1) * 365 + (year - 1) / 4 - (year - 1) / 100 + (year - 1) / 400

def daysInMonth (year : Nat) : Nat → Nat
  | 0 => 0
  | 2 => if isLeap year then 29 else 28
  | 4 | 6 | 9 | 11 => 30
  | _ => 31

def daysBeforeMonth (year : Nat) : Nat → Nat
  | 0 => 0
  | month + 1 => daysBeforeMonth year month + daysInMonth year month

private theorem daysBeforeYear_succ {year : Nat} (h : 1 ≤ year) :
    daysBeforeYear (year + 1) = daysBeforeYear year + daysInYear year := by
  obtain ⟨p, rfl⟩ : ∃ p, year = p + 1 := ⟨year - 1, by omega⟩
  have h4 : (p + 1) / 4 = p / 4 + if (p + 1) % 4 = 0 then 1 else 0 := by split <;> omega
  have h100 : (p + 1) / 100 = p / 100 + if (p + 1) % 100 = 0 then 1 else 0 := by split <;> omega
  have h400 : (p + 1) / 400 = p / 400 + if (p + 1) % 400 = 0 then 1 else 0 := by split <;> omega
  have hle : p / 100 ≤ p / 4 := by omega
  have h100' : (p + 1) % 100 = 0 → (p + 1) % 4 = 0 := by omega
  have h400' : (p + 1) % 400 = 0 → (p + 1) % 100 = 0 := by omega
  simp only [daysBeforeYear, daysInYear, isLeap, Bool.and_eq_true, Bool.or_eq_true,
    decide_eq_true_eq, Nat.add_sub_cancel, h4, h100, h400]
  generalize p / 4 = a at *
  generalize p / 100 = b at *
  generalize p / 400 = c at *
  by_cases d4 : (p + 1) % 4 = 0
  · by_cases d100 : (p + 1) % 100 = 0
    · by_cases d400 : (p + 1) % 400 = 0 <;> simp [d4, d100, d400] <;> omega
    · have d400 : ¬(p + 1) % 400 = 0 := fun h => d100 (h400' h)
      simp [d4, d100, d400]
      omega
  · have d100 : ¬(p + 1) % 100 = 0 := fun h => d4 (h100' h)
    have d400 : ¬(p + 1) % 400 = 0 := fun h => d100 (h400' h)
    simp [d4, d100, d400]
    omega

/-- The twelve months fill the year. -/
theorem daysBeforeMonth_thirteen (year : Nat) : daysBeforeMonth year 13 = daysInYear year := by
  simp only [daysBeforeMonth, daysInMonth, daysInYear]
  split <;> rfl

private theorem daysInMonth_le (year month : Nat) : daysInMonth year month ≤ 31 := by
  unfold daysInMonth
  split <;> try split
  all_goals omega

private theorem daysBeforeMonth_add_le {year month : Nat} (h : month ≤ 12) :
    daysBeforeMonth year month + daysInMonth year month ≤ daysInYear year := by
  rw [← daysBeforeMonth_thirteen]
  exact start_le (fun _ _ => rfl) (Nat.zero_le month) (by omega)

/-! ## Dates and times -/

/-- A `datetime` in UTC. -/
structure DateTime where
  year : Nat
  month : Nat
  day : Nat
  hour : Nat
  minute : Nat
  second : Nat
  microsecond : Nat
  year_mem : 1 ≤ year ∧ year ≤ 9999
  month_mem : 1 ≤ month ∧ month ≤ 12
  day_mem : 1 ≤ day ∧ day ≤ daysInMonth year month
  hour_lt : hour < 24
  minute_lt : minute < 60
  second_lt : second < 60
  microsecond_lt : microsecond < 1000000
  deriving DecidableEq

/-- The day within the year, the first being 1. -/
def DateTime.dayOfYear (t : DateTime) : Nat := daysBeforeMonth t.year t.month + t.day

/-- `toordinal()`: the first day of year 1 is 1. -/
def DateTime.ordinal (t : DateTime) : Nat := daysBeforeYear t.year + t.dayOfYear

/-- The microseconds since the start of day 0. -/
def DateTime.instant (t : DateTime) : Nat :=
  (((t.ordinal * 24 + t.hour) * 60 + t.minute) * 60 + t.second) * 1000000 + t.microsecond

/-- The fraction of a second, left out at zero, and the offset of UTC. -/
def fraction (microsecond : Nat) : List Char :=
  if microsecond = 0 then "+00:00".toList else '.' :: (pad 6 microsecond ++ "+00:00".toList)

/-- `isoformat()`. -/
def DateTime.isoformat (t : DateTime) : String :=
  String.ofList (pad 4 t.year ++ '-' :: (pad 2 t.month ++ '-' :: (pad 2 t.day ++ 'T' ::
    (pad 2 t.hour ++ ':' :: (pad 2 t.minute ++ ':' :: (pad 2 t.second ++
      fraction t.microsecond))))))

/-- The fields of two times compared from the year down. -/
def DateTime.cmpFields (a b : DateTime) : Ordering :=
  (cmp a.year b.year).then <| (cmp a.month b.month).then <| (cmp a.day b.day).then <|
    (cmp a.hour b.hour).then <| (cmp a.minute b.minute).then <| (cmp a.second b.second).then <|
      cmp a.microsecond b.microsecond

private theorem DateTime.dayOfYear_mem (t : DateTime) :
    0 < t.dayOfYear ∧ t.dayOfYear ≤ daysInYear t.year := by
  have hle := @daysBeforeMonth_add_le t.year _ t.month_mem.2
  have hday := t.day_mem
  unfold DateTime.dayOfYear
  omega

private theorem DateTime.cmp_ordinal (a b : DateTime) :
    cmp a.ordinal b.ordinal =
      (cmp a.year b.year).then ((cmp a.month b.month).then (cmp a.day b.day)) := by
  unfold DateTime.ordinal
  rw [cmp_start (fun _ => daysBeforeYear_succ) a.year_mem.1 b.year_mem.1 a.dayOfYear_mem
    b.dayOfYear_mem]
  apply then_congr
  intro hyear
  have heq : a.year = b.year := (cmp_eq_eq_iff _ _).mp hyear
  have ha := a.day_mem
  unfold DateTime.dayOfYear
  rw [heq] at ha ⊢
  exact cmp_start (fun _ _ => rfl) (Nat.zero_le _) (Nat.zero_le _) ha b.day_mem

/-- Instants compare by their fields from the year down. -/
theorem DateTime.cmp_instant (a b : DateTime) : cmp a.instant b.instant = a.cmpFields b := by
  unfold DateTime.instant DateTime.cmpFields
  rw [cmp_mul_add a.microsecond_lt b.microsecond_lt, cmp_mul_add a.second_lt b.second_lt,
    cmp_mul_add a.minute_lt b.minute_lt, cmp_mul_add a.hour_lt b.hour_lt, a.cmp_ordinal]
  simp only [Ordering.then_assoc]

/-- The offset's sign comes before the point of a fraction. -/
theorem compareLex_fraction {a b : Nat} (ha : a < 1000000) (hb : b < 1000000) :
    List.compareLex cmp (fraction a) (fraction b) = cmp a b := by
  have hsign : cmp '+' '.' = .lt := rfl
  have hpoint : cmp '.' '+' = .gt := rfl
  have hplus : "+00:00".toList = '+' :: "00:00".toList := by simp
  unfold fraction
  by_cases ha0 : a = 0
  · by_cases hb0 : b = 0
    · rw [if_pos ha0, if_pos hb0, ha0, hb0, hplus, compareLex_cons_self, cmp_self_eq_eq]
      exact (compareLex_compares _ _).eq_eq.mpr rfl
    · have hlt : a < b := by omega
      rw [if_pos ha0, if_neg hb0, hplus, List.compareLex_cons_cons, hsign, hlt.cmp_eq_lt,
        Ordering.lt_then]
  · by_cases hb0 : b = 0
    · have hlt : b < a := by omega
      rw [if_neg ha0, if_pos hb0, hplus, List.compareLex_cons_cons, hpoint, hlt.cmp_eq_gt,
        Ordering.gt_then]
    · rw [if_neg ha0, if_neg hb0, compareLex_cons_self, compareLex_pad_append ha hb,
        (compareLex_compares _ _).eq_eq.mpr rfl, Ordering.then_eq]

/-- Texts compare by the fields from the year down. -/
theorem DateTime.cmp_isoformat_fields (a b : DateTime) :
    cmp a.isoformat b.isoformat = a.cmpFields b := by
  have two : ∀ {n m : Nat}, n ≤ m → m < 100 → n < 10 ^ 2 := fun h h' => by omega
  have hyear : ∀ t : DateTime, t.year < 10 ^ 4 := fun t => by have := t.year_mem; omega
  have hday : ∀ t : DateTime, t.day < 10 ^ 2 := fun t =>
    two (t.day_mem.2.trans (daysInMonth_le _ _)) (by decide)
  unfold DateTime.isoformat DateTime.cmpFields
  rw [cmp_ofList, compareLex_pad_append (hyear a) (hyear b), compareLex_cons_self,
    compareLex_pad_append (two a.month_mem.2 (by decide)) (two b.month_mem.2 (by decide)),
    compareLex_cons_self, compareLex_pad_append (hday a) (hday b), compareLex_cons_self,
    compareLex_pad_append (two a.hour_lt.le (by decide)) (two b.hour_lt.le (by decide)),
    compareLex_cons_self,
    compareLex_pad_append (two a.minute_lt.le (by decide)) (two b.minute_lt.le (by decide)),
    compareLex_cons_self,
    compareLex_pad_append (two a.second_lt.le (by decide)) (two b.second_lt.le (by decide)),
    compareLex_fraction a.microsecond_lt b.microsecond_lt]

/-- Texts are in the order of the instants they stand for. -/
theorem DateTime.cmp_isoformat (a b : DateTime) :
    cmp a.isoformat b.isoformat = cmp a.instant b.instant := by
  rw [a.cmp_isoformat_fields, a.cmp_instant]

/-- A text is not empty, so it comes after the empty one. -/
theorem DateTime.empty_lt_isoformat (t : DateTime) : "" < t.isoformat := by
  apply String.lt_iff_toList_lt.mpr
  simp only [DateTime.isoformat, String.toList_ofList, pad, List.cons_append]
  exact List.nil_lt_cons _ _

/-! ## The time of an instant -/

/-- The first instant of year 1. -/
def minInstant : Nat := 86400000000

/-- The end of year 9999. -/
def supInstant : Nat := (daysBeforeYear 10000 + 1) * 86400000000

def yearAt (ordinal : Nat) : Nat := piece daysBeforeYear 9999 ordinal

def monthAt (year dayOfYear : Nat) : Nat := piece (daysBeforeMonth year) 12 dayOfYear

private theorem yearAt_spec {n : Nat} (hlo : 0 < n) (hhi : n ≤ daysBeforeYear 10000) :
    1 ≤ yearAt n ∧ yearAt n ≤ 9999 ∧ daysBeforeYear (yearAt n) < n ∧
      n ≤ daysBeforeYear (yearAt n) + daysInYear (yearAt n) := by
  have h := @piece_spec daysBeforeYear 1 9999 n (by omega) hlo hhi
  rwa [daysBeforeYear_succ h.1] at h

private theorem monthAt_spec {year n : Nat} (hlo : 0 < n) (hhi : n ≤ daysInYear year) :
    1 ≤ monthAt year n ∧ monthAt year n ≤ 12 ∧ daysBeforeMonth year (monthAt year n) < n ∧
      n ≤ daysBeforeMonth year (monthAt year n) + daysInMonth year (monthAt year n) :=
  @piece_spec (daysBeforeMonth year) 1 12 n (by omega) hlo
    (hhi.trans_eq (daysBeforeMonth_thirteen year).symm)

/-- `datetime.fromtimestamp(…, UTC)`: the time of an instant of the years 1 to 9999. -/
def DateTime.ofInstant (n : Nat) (h : minInstant ≤ n ∧ n < supInstant) : DateTime :=
  have hn : 0 < n / 86400000000 ∧ n / 86400000000 ≤ daysBeforeYear 10000 := by
    unfold minInstant supInstant at h
    omega
  have hyear := yearAt_spec hn.1 hn.2
  have hmonth := @monthAt_spec (yearAt (n / 86400000000))
    (n / 86400000000 - daysBeforeYear (yearAt (n / 86400000000))) (by omega) (by omega)
  { year := yearAt (n / 86400000000)
    month := monthAt (yearAt (n / 86400000000))
      (n / 86400000000 - daysBeforeYear (yearAt (n / 86400000000)))
    day := n / 86400000000 - daysBeforeYear (yearAt (n / 86400000000)) -
      daysBeforeMonth (yearAt (n / 86400000000)) (monthAt (yearAt (n / 86400000000))
        (n / 86400000000 - daysBeforeYear (yearAt (n / 86400000000))))
    hour := n / 3600000000 % 24
    minute := n / 60000000 % 60
    second := n / 1000000 % 60
    microsecond := n % 1000000
    year_mem := ⟨hyear.1, hyear.2.1⟩
    month_mem := ⟨hmonth.1, hmonth.2.1⟩
    day_mem := by omega
    hour_lt := Nat.mod_lt _ (by decide)
    minute_lt := Nat.mod_lt _ (by decide)
    second_lt := Nat.mod_lt _ (by decide)
    microsecond_lt := Nat.mod_lt _ (by decide) }

/-- The date of an instant is at that instant. -/
@[simp] theorem DateTime.instant_ofInstant (n : Nat) (h : minInstant ≤ n ∧ n < supInstant) :
    (DateTime.ofInstant n h).instant = n := by
  have hn : 0 < n / 86400000000 ∧ n / 86400000000 ≤ daysBeforeYear 10000 := by
    unfold minInstant supInstant at h
    omega
  have hyear := yearAt_spec hn.1 hn.2
  have hmonth := @monthAt_spec (yearAt (n / 86400000000))
    (n / 86400000000 - daysBeforeYear (yearAt (n / 86400000000))) (by omega) (by omega)
  have hordinal : (DateTime.ofInstant n h).ordinal = n / 86400000000 := by
    simp only [DateTime.ordinal, DateTime.dayOfYear, DateTime.ofInstant]
    omega
  rw [DateTime.instant, hordinal]
  simp only [DateTime.ofInstant]
  omega

end Calendar
