import MeshSharding.Proofs.Collective.Infer
import MeshSharding.Proofs.Sharding.Exact

namespace MeshSharding

section Position

variable {mesh : Mesh} {axis other : AxisRef} {name name' : String}

theorem Mesh.eq_of_axisPosition_eq (hn : name ∈ mesh.axes.map (·.name))
    (h : mesh.axisPosition name = mesh.axisPosition name') : name = name' := by
  have ⟨axis, ha, hname⟩ := List.mem_map.mp hn
  have hlt : mesh.axisPosition name < mesh.axes.length :=
    List.findIdx_lt_length_of_exists ⟨axis, ha, by simpa using hname⟩
  have hat := List.findIdx_getElem (w := hlt)
  have hat' := List.findIdx_getElem (w := h ▸ hlt)
  simp only [decide_eq_true_eq] at hat hat'
  have hget : mesh.axes[mesh.axisPosition name] = mesh.axes[mesh.axisPosition name'] := by simp only [h]
  exact hat.symm.trans ((congrArg MeshAxis.name hget).trans hat')

namespace AxisRef

-- References to different axes share no factor, and none of them continues the other one.
theorem before_iff_of_name_ne (ha : axis.check mesh = .ok ()) (hn : axis.name ≠ other.name) :
    Before mesh axis other ↔ mesh.axisPosition axis.name < mesh.axisPosition other.name := by
  have hne : mesh.axisPosition axis.name ≠ mesh.axisPosition other.name :=
    fun he => hn (Mesh.eq_of_axisPosition_eq (name_mem_of_check ha) he)
  have ho : axis.overlaps other = false := by simp [overlaps, hn]
  have hm : axis.canMerge other = false := by simp [canMerge, hn]
  simp [Before, ho, hm, order, Ordering.then_eq_lt, compare_lt_iff_lt, hne]

end AxisRef

end Position

namespace Sharding

open AxisRef

variable {s : Sharding} {mesh : Mesh} {manual : List String} {type inner : TensorType} {axes : List AxisRef}

-- No free axis of the list is before a manual one in the mesh.
def ManualLead (mesh : Mesh) (manual : List String) (axes : List AxisRef) : Prop :=
  ∀ axis ∈ axes, ∀ other ∈ axes, axis.isManual manual = true → other.isManual manual = false →
    mesh.axisPosition axis.name < mesh.axisPosition other.name

-- The axes of the list with the manual ones in front.
abbrev manualFirst (manual : List String) (axes : List AxisRef) : List AxisRef :=
  axes.filter (·.isManual manual) ++ axes.filter fun axis => !axis.isManual manual

theorem manualFirst_perm : (manualFirst manual axes).Perm axes :=
  List.filter_append_perm _ _

theorem name_ne_of_isManual {axis other : AxisRef} (ha : axis.isManual manual = true)
    (ho : other.isManual manual = false) : axis.name ≠ other.name := by
  intro hn
  simp [AxisRef.isManual, hn] at ha ho
  contradiction

theorem pairwise_before_manualFirst_iff (hc : ∀ axis ∈ axes, axis.check mesh = .ok ())
    (hs : axes.Pairwise (Before mesh)) :
    (manualFirst manual axes).Pairwise (Before mesh) ↔ ManualLead mesh manual axes := by
  simp only [manualFirst, List.pairwise_append, hs.filter, true_and, List.mem_filter, and_imp, Bool.not_eq_true']
  constructor
  case mp =>
    intro h axis ha other ho hm hf
    exact (before_iff_of_name_ne (hc axis ha) (name_ne_of_isManual hm hf)).mp (h axis ha hm other ho hf)
  case mpr =>
    intro h axis ha hm other ho hf
    exact (before_iff_of_name_ne (hc axis ha) (name_ne_of_isManual hm hf)).mpr (h axis ha other ho hm hf)

-- Both lists have the same axes, and a list of them that is sorted is the only one.
theorem manualFirst_eq_iff (hc : ∀ axis ∈ axes, axis.check mesh = .ok ()) (hs : axes.Pairwise (Before mesh)) :
    manualFirst manual axes = axes ↔ ManualLead mesh manual axes := by
  rw [← pairwise_before_manualFirst_iff hc hs]
  refine ⟨fun heq => by rwa [heq], fun h => ?_⟩
  refine manualFirst_perm.eq_of_pairwise (fun axis other _ _ hlt hgt => ?_) h hs
  exact absurd (Std.TransCmp.lt_trans hlt.left hgt.left) (by simp [Std.ReflCmp.compare_self])

section RoundTrip

theorem dims_globalView_localView {index : Nat} (h : checkDimsManualFirst manual index s.dims = .ok ()) :
    (s.globalView (s.localView manual) manual).dims = s.dims := by
  have hdim : ∀ dim ∈ s.dims, manualFirst manual dim.axes = dim.axes := fun dim hd =>
    have ⟨_, hfirst⟩ := checkDimsManualFirst_iff h dim hd
    filter_append_of_checkManualFirst hfirst
  simp only [globalView, localView, List.zipWith_map_right, List.zipWith_self]
  refine (List.map_congr_left fun dim hd => ?_).trans (List.map_id _)
  simp only [DimSharding.withAxes]
  exact congrArg (fun axes => { dim with axes }) (hdim dim hd)

-- A sharding that differs from a valid one in the order of its replicated axes only.
theorem checkIn_withReplicated_iff (h : s.checkIn mesh type.shape = .ok ()) (hp : axes.Perm s.replicated) :
    { s with replicated := axes }.checkIn mesh type.shape = .ok () ↔ axes.Pairwise (Before mesh) := by
  have ⟨hr, ha, hs, _⟩ := checkIn_eq_ok_iff.mp h
  have hapart : Apart mesh (s.shardingAxes ++ axes) := ha.perm (hp.append_left _)
  have hc := (hapart.sublist (List.sublist_append_right _ _)).checked
  rw [checkIn_eq_ok_iff, ← checkCanonical_iff hc]
  exact ⟨fun ⟨_, _, _, h⟩ => h, fun h => ⟨hr, hapart, hs, h⟩⟩

-- In a dimension of a sharding that crosses the boundary the manual axes come first, so that they find their place
-- again behind which the free ones stand. Among the replicated axes they have no such place: they come back in front,
-- while the mesh may have a free axis before them.
theorem globalView_localView_eq_iff (h : s.localType manual mesh type = .ok inner) :
    let back := s.globalView (s.localView manual) manual
    back.mesh = s.mesh ∧ back.dims = s.dims ∧ back.replicated.Perm s.replicated ∧
      (back = s ↔ ManualLead mesh manual s.replicated) ∧
      (back.checkIn mesh type.shape = .ok () ↔ back = s) := by
  intro back
  have ⟨hfits, hfirst, _⟩ := localType_eq_ok h
  have ⟨_, ha, _, hcanonical⟩ := checkIn_eq_ok_iff.mp hfits
  have hc := (ha.sublist (List.sublist_append_right _ _)).checked
  have hsorted := (checkCanonical_iff hc).mp hcanonical
  have hback : back = { s with replicated := manualFirst manual s.replicated } := by
    have hd : back.dims = s.dims := dims_globalView_localView hfirst
    rw [← hd]
    rfl
  have heq : back = s ↔ ManualLead mesh manual s.replicated := by
    rw [hback, ← manualFirst_eq_iff hc hsorted]
    exact ⟨congrArg Sharding.replicated, fun hr => by rw [hr]⟩
  refine ⟨rfl, dims_globalView_localView hfirst, manualFirst_perm, heq, ?_⟩
  rw [heq, hback, checkIn_withReplicated_iff hfits manualFirst_perm, pairwise_before_manualFirst_iff hc hsorted]

-- Manual axes before and after a free one, in a dimension and among the replicated axes.
def ledByManual : Sharding :=
  { mesh := .literal oddMesh
    dims := [{ axes := [.whole "c", .sub "b" 4 2], closed := false }, { axes := [] }]
    replicated := [.whole "a", .sub "b" 1 2] }

theorem globalView_localView_eq_iff_ledByManual :
    ledByManual.localType ["a", "c"] oddMesh ⟨[12, 5], .f32⟩ = .ok ⟨[4, 5], .f32⟩ ∧
      ledByManual.globalView (ledByManual.localView ["a", "c"]) ["a", "c"] = ledByManual := by
  have h : ledByManual.localType ["a", "c"] oddMesh ⟨[12, 5], .f32⟩ = .ok ⟨[4, 5], .f32⟩ := by decide
  have ⟨_, _, _, heq, _⟩ := globalView_localView_eq_iff h
  have hlead : ManualLead oddMesh ["a", "c"] ledByManual.replicated := by
    unfold ManualLead
    decide
  exact ⟨h, heq.mpr hlead⟩

-- The free axis is the first one of the mesh.
def pairMesh : Mesh :=
  { axes := [⟨"a", 2⟩, ⟨"b", 2⟩], deviceIds := [] }

def freeLeads : Sharding :=
  { mesh := .symbol "mesh", dims := [{ axes := [] }], replicated := [.whole "a", .whole "b"] }

theorem globalView_localView_ne_freeLeads :
    pairMesh.Built ∧ freeLeads.localType ["b"] pairMesh ⟨[8], .f32⟩ = .ok ⟨[8], .f32⟩ ∧
      freeLeads.globalView (freeLeads.localView ["b"]) ["b"] ≠ freeLeads := by
  refine ⟨rfl, by decide, ?_⟩
  decide

end RoundTrip

end Sharding

end MeshSharding
