import MeshSharding.Proofs.Sharding.Exact

namespace MeshSharding

open AxisRef

namespace AxisRef

variable {mesh : Mesh} {axes : List AxisRef} {axis other : AxisRef}

theorem check_sub (hb : mesh.Built) {own : MeshAxis} (ho : own ∈ mesh.axes) {preSize size : Nat}
    (hpre : 0 < preSize) (hsize : 1 < size) (hd : preSize * size ∣ own.size)
    (hw : ¬ (preSize * size = own.size ∧ preSize = 1)) : (AxisRef.sub own.name preSize size).check mesh = .ok () := by
  refine check_eq_ok_iff.mpr ⟨_, hb.axisSize?_eq ho, fun sub hs => ?_⟩
  cases hs
  have hle := Nat.le_of_dvd (hb.spans.left own ho) hd
  exact fault?_eq_none_iff.mpr ⟨hpre, hsize, hle.trans (hb.size_le ho), hd, hw⟩

-- Where a part ends no later than another part of the same axis starts, the other starts at a multiple.
def Chained (mesh : Mesh) (axes : List AxisRef) : Prop :=
  Follow (· ∣ ·) mesh axes

theorem Apart.prod_dvd (h : Apart mesh axes) (hb : mesh.Built) (hc : Chained mesh axes) :
    (axes.map (extent mesh)).prod ∣ (mesh.axes.map (·.size)).prod :=
  h.prod_rel .dvd hb hc fun _ ha _ hs => end_dvd_of_check (h.checked _ ha) hs

-- Among the divisors of a power of a prime, the smaller ones divide the larger ones.
theorem dvd_of_le_of_dvd_primePow {n a b : Nat} (hn : n = 1 ∨ IsPrimePow n) (ha : a ∣ n) (hb : b ∣ n)
    (hle : a ≤ b) : a ∣ b := by
  cases hn with
  | inl hn =>
    subst hn
    exact (Nat.dvd_one.mp ha) ▸ one_dvd b
  | inr hn =>
    have ⟨p, k, hp, _, hpk⟩ := (isPrimePow_nat_iff n).mp hn
    subst hpk
    have ⟨i, _, hi⟩ := (Nat.dvd_prime_pow hp).mp ha
    have ⟨j, _, hj⟩ := (Nat.dvd_prime_pow hp).mp hb
    subst hi hj
    exact pow_dvd_pow p ((Nat.pow_le_pow_iff_right hp.one_lt).mp hle)

theorem chained_of_primePow (h : ∀ axis ∈ axes, axis.check mesh = .ok ())
    (hm : ∀ axis ∈ mesh.axes, axis.size = 1 ∨ IsPrimePow axis.size) : Chained mesh axes := by
  intro axis ha other ho hn hle
  have ⟨own, hown, _, hs⟩ := exists_axis_of_check (h axis ha)
  have hend := end_dvd_of_check (h axis ha) hs
  have hend' := end_dvd_of_check (h other ho) (hn ▸ hs)
  exact dvd_of_le_of_dvd_primePow (hm own hown) hend ((Dvd.intro _ rfl).trans hend') hle

-- All other numbers are the product of a smaller and a larger factor without a common divisor.
theorem exists_coprime_factors {n : Nat} (hpos : 0 < n) (hone : n ≠ 1) (hn : ¬ IsPrimePow n) :
    ∃ a b, a * b = n ∧ 1 < a ∧ a < b ∧ a.Coprime b := by
  have hp := Nat.minFac_prime hone
  have ⟨k, m, hm, heq⟩ := Nat.exists_eq_pow_mul_and_not_dvd hpos.ne' n.minFac hp.ne_one
  generalize hq : n.minFac = p at hp hm heq
  have hk : k ≠ 0 := by
    rintro rfl
    rw [pow_zero, one_mul] at heq
    exact hm (heq ▸ hq ▸ n.minFac_dvd)
  have hcoprime : (p ^ k).Coprime m := Nat.Coprime.pow_left k ((Nat.Prime.coprime_iff_not_dvd hp).mpr hm)
  have hpow : 1 < p ^ k := Nat.one_lt_pow hk hp.one_lt
  have hrest : 1 < m := by
    have hzero : m ≠ 0 := fun h => hm (h ▸ dvd_zero p)
    have hother : m ≠ 1 := by
      rintro rfl
      rw [Nat.mul_one] at heq
      exact hn (heq ▸ hp.isPrimePow.pow hk)
    omega
  have hne : p ^ k ≠ m := by
    intro h
    rw [← h, Nat.coprime_self] at hcoprime
    omega
  cases Nat.lt_or_gt_of_ne hne with
  | inl hlt => exact ⟨p ^ k, m, heq.symm, hpow, hlt, hcoprime⟩
  | inr hlt => exact ⟨m, p ^ k, by rw [heq, Nat.mul_comm], hrest, hlt, hcoprime.symm⟩

end AxisRef

namespace Sharding

variable {mesh : Mesh} {s : Sharding} {ref : MeshRef} {shape : List Nat} {axes : List AxisRef} {axis : MeshAxis}

-- One dimension for each reference.
def onePerDim (ref : MeshRef) (axes : List AxisRef) : Sharding :=
  { mesh := ref, dims := axes.map fun axis => { axes := [axis] } }

theorem shardingAxes_onePerDim : (onePerDim ref axes).shardingAxes = axes := by
  simp [onePerDim, shardingAxes, List.flatMap_map]

-- Any references that are apart can be used for the dimensions of a tensor.
theorem checkIn_onePerDim (hb : mesh.Built) (h : Apart mesh axes) :
    (onePerDim ref axes).checkIn mesh (axes.map (extent mesh)) = .ok () := by
  refine checkIn_eq_ok_iff.mpr ⟨by simp [onePerDim, rank], ?_, fun entry he => ?_, rfl⟩
  case refine_1 =>
    rw [shardingAxes_onePerDim]
    simpa [onePerDim] using h
  case refine_2 =>
    simp only [onePerDim, List.zip_map', List.mem_map] at he
    obtain ⟨axis, ha, heq⟩ := he
    subst heq
    have hsize := (h.sublist (List.singleton_sublist.mpr ha)).totalSize_eq hb
    exact ⟨rfl, _, hsize, by simp⟩

-- Two factors of equal size, and all other axes as they are.
def unevenAxes (mesh : Mesh) (axis : MeshAxis) (a b : Nat) : List AxisRef :=
  .sub axis.name 1 a :: .sub axis.name b a :: (mesh.axes.erase axis).map fun other => .whole other.name

theorem apart_unevenAxes (hb : mesh.Built) (ha : axis ∈ mesh.axes) {a b : Nat} (heq : a * b = axis.size)
    (hone : 1 < a) (hlt : a < b) : Apart mesh (unevenAxes mesh axis a b) := by
  have ⟨_, hnodup, _⟩ := hb.spans
  have hnames : ((axis :: mesh.axes.erase axis).map MeshAxis.name).Nodup :=
    ((List.perm_cons_erase ha).map MeshAxis.name).nodup hnodup
  have ⟨hfree, hrest⟩ := List.nodup_cons.mp hnames
  have hne : a ≠ axis.size := heq ▸ (lt_mul_of_one_lt_right (by omega) (by omega)).ne
  have hle : a * b ≤ Size.greatest := heq ▸ hb.size_le ha
  have hmajor : (AxisRef.sub axis.name 1 a).check mesh = .ok () :=
    check_sub hb ha Nat.one_pos hone (by rw [Nat.one_mul, ← heq]; exact Nat.dvd_mul_right a b) (by simpa using hne)
  have hminor : (AxisRef.sub axis.name b a).check mesh = .ok () :=
    check_sub hb ha (by omega) hone (by rw [← heq, Nat.mul_comm]) (by omega)
  have hothers : ∀ other ∈ mesh.axes.erase axis, axis.name ≠ other.name ∧ (whole other.name).check mesh = .ok () := by
    intro other ho
    refine ⟨fun hn => hfree (List.mem_map.mpr ⟨other, ho, hn.symm⟩), ?_⟩
    exact check_eq_ok_iff.mpr ⟨_, hb.axisSize?_eq (List.mem_of_mem_erase ho), nofun⟩
  constructor
  case checked => simpa [unevenAxes, hmajor, hminor] using fun other ho => (hothers other ho).right
  case disjoint =>
    have happart : (AxisRef.sub axis.name 1 a).overlaps (.sub axis.name b a) = false := by
      have hend : Size.satMul 1 a = a := by rw [Size.satMul_of_le] <;> nlinarith
      simp [overlaps, AxisRef.sub, SubAxis.overlaps, SubAxis.nextPreSize, hend, hlt.le]
    simp only [unevenAxes, List.pairwise_cons, List.mem_cons, List.forall_mem_map, forall_eq_or_imp, List.pairwise_map]
    refine ⟨⟨happart, fun other ho => ?_⟩, fun other ho => ?_, ?_⟩
    case refine_1 => simp [overlaps, AxisRef.sub, whole, (hothers other ho).left]
    case refine_2 => simp [overlaps, AxisRef.sub, whole, (hothers other ho).left]
    case refine_3 =>
      apply (List.pairwise_map.mp hrest).imp
      intro other third hn
      simp [overlaps, whole, hn]

-- The factors are used twice, but are not contained in the axis twice.
theorem not_dvd_unevenAxes (hb : mesh.Built) (ha : axis ∈ mesh.axes) {a b : Nat} (heq : a * b = axis.size)
    (hone : 1 < a) (hc : a.Coprime b) :
    ¬ ((unevenAxes mesh axis a b).map (extent mesh)).prod ∣ (mesh.axes.map (·.size)).prod := by
  have hothers : ((mesh.axes.erase axis).map fun other => whole other.name).map (extent mesh) =
      (mesh.axes.erase axis).map (·.size) := by
    rw [List.map_map]
    apply List.map_congr_left
    intro other ho
    simp [extent, whole, hb.axisSize?_eq (List.mem_of_mem_erase ho)]
  have hrest : 0 < ((mesh.axes.erase axis).map (·.size)).prod := by
    apply List.prod_pos
    exact List.forall_mem_map.mpr fun other ho => hb.spans.left other (List.mem_of_mem_erase ho)
  intro h
  rw [unevenAxes, List.map_cons, List.map_cons, hothers, ((List.perm_cons_erase ha).map _).prod_eq] at h
  simp only [extent, AxisRef.sub, List.map_cons, List.prod_cons, ← heq, ← Nat.mul_assoc] at h
  have hdvd : a ∣ b := Nat.dvd_of_mul_dvd_mul_left (by omega) (Nat.dvd_of_mul_dvd_mul_right hrest h)
  exact hone.ne' (Nat.eq_one_of_dvd_coprimes hc dvd_rfl hdvd)

-- Shards are held evenly if the parts of each axis are chained, and they are for all valid shardings if and
-- only if the sizes of the axes leave no other choice.
theorem totalShards_dvd_deviceCount (hb : mesh.Built) :
    (∀ (s : Sharding) shape, s.checkIn mesh shape = .ok () → ∃ total, s.totalShards mesh = .ok total ∧
      total ≤ mesh.deviceCount ∧ (Chained mesh s.shardingAxes → total ∣ mesh.deviceCount)) ∧
    ((∀ (s : Sharding) shape, s.checkIn mesh shape = .ok () → ∃ total, s.totalShards mesh = .ok total ∧
      total ∣ mesh.deviceCount) ↔ ∀ axis ∈ mesh.axes, axis.size = 1 ∨ IsPrimePow axis.size) := by
  rw [hb.deviceCount_eq]
  have hchained : ∀ (s : Sharding) shape, s.checkIn mesh shape = .ok () → ∃ total, s.totalShards mesh = .ok total ∧
      total ≤ (mesh.axes.map (·.size)).prod ∧
      (Chained mesh s.shardingAxes → total ∣ (mesh.axes.map (·.size)).prod) := by
    intro s shape h
    have ha := apart_of_checkIn h
    exact ⟨_, totalShards_eq hb ha, ha.prod_le hb, ha.prod_dvd hb⟩
  refine ⟨hchained, ?_, ?_⟩
  case refine_1 =>
    intro h axis ha
    by_contra hn
    obtain ⟨hone, hpow⟩ := not_or.mp hn
    obtain ⟨a, b, heq, hlt, hab, hc⟩ := exists_coprime_factors (hb.spans.left axis ha) hone hpow
    have hapart := apart_unevenAxes hb ha heq hlt hab
    obtain ⟨total, ht, hd⟩ := h (onePerDim (.literal mesh) _) _ (checkIn_onePerDim hb hapart)
    rw [totalShards_eq hb (by rwa [shardingAxes_onePerDim]), shardingAxes_onePerDim] at ht
    cases ht
    exact not_dvd_unevenAxes hb ha heq hlt hc hd
  case refine_2 =>
    intro hm s shape h
    obtain ⟨total, ht, -, hd⟩ := hchained s shape h
    exact ⟨total, ht, hd (chained_of_primePow (apart_of_checkIn h).checked hm)⟩

section Twelve

def twelve : Mesh :=
  ⟨[⟨"c", 12⟩], []⟩

theorem totalShards_dvd_deviceCount_twelve :
    let s := onePerDim (.literal twelve) [.sub "c" 6 2, .sub "c" 1 3]
    s.checkIn twelve [4, 6] = .ok () ∧ s.totalShards twelve = .ok 6 ∧ 6 ∣ twelve.deviceCount := by
  intro s
  have hb : twelve.Built := rfl
  have hfits : s.checkIn twelve [4, 6] = .ok () := by decide
  have htotal : s.totalShards twelve = .ok 6 := by decide
  have hchained : Chained twelve s.shardingAxes := by
    unfold Chained Follow
    decide
  obtain ⟨total, ht, -, hd⟩ := (totalShards_dvd_deviceCount hb).left s [4, 6] hfits
  cases htotal.symm.trans ht
  exact ⟨hfits, htotal, hd hchained⟩

-- Two parts of three devices each do not overlap, but there are no nine equal parts of twelve.
theorem not_totalShards_dvd_deviceCount_twelve :
    let s := onePerDim (.literal twelve) [.sub "c" 1 3, .sub "c" 4 3]
    twelve.Built ∧ s.checkIn twelve [3, 3] = .ok () ∧ s.totalShards twelve = .ok 9 ∧
      ¬ 9 ∣ twelve.deviceCount := by
  refine ⟨rfl, ?_, ?_, ?_⟩ <;> decide

end Twelve

end Sharding

end MeshSharding
