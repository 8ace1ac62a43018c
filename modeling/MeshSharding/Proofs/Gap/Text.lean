import MeshSharding.Program.Printer
import MeshSharding.Proofs.Gap.Reading

namespace MeshSharding

variable {p : Program} {g : Gap} {o : OpId} {v : ValueId} {b : BlockId} {names : ValueNames}

def ValueNames.past (names : ValueNames) (g : Gap) : ValueNames :=
  names.map fun (v, name) => (v.past g, name)

namespace ValueNames

theorem past_append {other : ValueNames} : past (names ++ other) g = past names g ++ past other g :=
  List.map_append

theorem past_name? : name? (past names g) (v.past g) = name? names v := by
  simp [name?, past, List.find?_map, Function.comp_def]

@[simp]
theorem past_nameText : nameText (past names g) (v.past g) = nameText names v := by
  rw [nameText, past_name?, nameText]

end ValueNames

namespace Program

section Names

variable {number : Nat} {vs : List ValueId} {counters : Counters}

theorem past_resultNames : resultNames number (vs.map (·.past g)) = (resultNames number vs).past g := by
  match vs with
  | []          => rfl
  | [v]         => rfl
  | v :: w :: vs => simp [resultNames, ValueNames.past, List.mapIdx_eq_zipIdx_map, List.zipIdx_map]

theorem past_opNames (os : List OpId) :
    (p.past g).opNames number (os.map (·.past g)) = ((p.opNames number os).1.past g, (p.opNames number os).2) := by
  induction os generalizing number with
  | nil          => rfl
  | cons o os ih => simp [opNames, ih, past_resultNames, ValueNames.past_append]

theorem past_ownNames :
    (p.past g).ownNames counters b = ((p.ownNames counters b).1.past g, (p.ownNames counters b).2) := by
  simp [ownNames, past_opNames, ValueNames.past, List.mapIdx_eq_zipIdx_map, List.zipIdx_map]

theorem past_blockNames {depth : Nat} :
    (p.past g).blockNames depth = fun counters b => (p.blockNames depth counters b).past g := by
  induction depth with
  | zero          => rfl
  | succ depth ih =>
    funext counters b
    simp [blockNames, past_ownNames, ih, ValueNames.past, List.map_flatMap, List.flatMap_map]

theorem past_names : (p.past g).names = p.names.past g := by
  rw [names, names, past_length_blocks, past_blockNames]

end Names

section Text

variable {vs : List ValueId} {op : Operation} {body : BlockId → String} {indent : Nat}

@[simp]
theorem past_nameList : nameList (names.past g) (vs.map (·.past g)) = nameList names vs := by
  simp [nameList, Function.comp_def]

@[simp]
theorem past_typeList : (p.past g).typeList (vs.map (·.past g)) = p.typeList vs := by
  simp [typeList, Function.comp_def]

@[simp]
theorem past_resultTypes : (p.past g).resultTypes (vs.map (·.past g)) = p.resultTypes vs := by
  match vs with
  | []           => rfl
  | [v]          => simp [resultTypes]
  | v :: w :: vs => simp [resultTypes, typeList, Function.comp_def]

@[simp]
theorem past_functionType {ws : List ValueId} :
    (p.past g).functionType (vs.map (·.past g)) (ws.map (·.past g)) = p.functionType vs ws := by
  simp [functionType]

@[simp]
theorem past_argumentList :
    (p.past g).argumentList (names.past g) (vs.map (·.past g)) = p.argumentList names vs := by
  simp [argumentList, Function.comp_def]

@[simp]
theorem past_shardingAttribute : (p.past g).shardingAttribute (vs.map (·.past g)) = p.shardingAttribute vs := by
  simp [shardingAttribute, Function.comp_def, List.filterMap_map]

@[simp]
theorem past_terminatorText : (p.past g).terminatorText (names.past g) (op.past g) = p.terminatorText names op := by
  simp [terminatorText]

@[simp]
theorem past_bodyText : (p.past g).bodyText (names.past g) body indent b = p.bodyText names body indent b := by
  simp [bodyText]

@[simp]
theorem past_regionsText {regions : List BlockId} :
    (p.past g).regionsText (names.past g) body indent regions = p.regionsText names body indent regions := by
  simp [regionsText]

@[simp]
theorem past_opText : (p.past g).opText (names.past g) body indent (o.past g) = p.opText names body indent o := by
  simp [opText]

@[simp]
theorem past_opLine : (p.past g).opLine (names.past g) body indent (o.past g) = p.opLine names body indent o := by
  cases hr : (p.op o).results <;> simp [opLine, hr, ValueNames.past_name?]

theorem past_blockText {depth : Nat} : (p.past g).blockText (names.past g) depth = p.blockText names depth := by
  induction depth with
  | zero          => rfl
  | succ depth ih => funext indent b; simp [blockText, ih, Function.comp_def]

theorem past_text : (p.past g).text = p.text := by
  have hn : List.reverse (p.past g).names = ValueNames.past p.names.reverse g := by
    rw [past_names, ValueNames.past, ValueNames.past, List.map_reverse]
  have ha (v : ValueId) : (p.past g).entryArgumentText (ValueNames.past p.names.reverse g) (v.past g) =
      p.entryArgumentText p.names.reverse v := by
    simp [entryArgumentText]
  have hr : ((p.returned? entry).map (·.map (·.past g))).getD [] = ((p.returned? entry).getD []).map (·.past g) := by
    cases p.returned? entry <;> rfl
  simp only [text, hn, past_blockText, past_meshes, past_name, past_block, Block.past_arguments, List.map_map,
    Function.comp_def, ha, past_returned?, hr, past_length_blocks]
  cases (p.returned? entry).getD [] with
  | nil       => rfl
  | cons v vs =>
    have ht : (p.past g).resultTypes ((v :: vs).map (·.past g)) = p.resultTypes (v :: vs) := past_resultTypes
    rw [List.map_cons] at ht ⊢
    simp only [ht]

end Text

end Program

end MeshSharding
