/-
# Numbers and booleans through a text (`toolbox/json.c`)

A value is put into a tree with `u_json_new_int` or `u_json_new_bool`, and taken out of it again,
most often on the other side of an encoded text, with `u_json_get_int` or `u_json_get_bool`.

* §1 is the code, and the client that makes an array of values.
* §2: what `%ld` prints is a number of the grammar, and the one that `strtol` reads.
* §3: the values of an array come out of its text (`ofScalars_survive`), but for those that
  `u_atol` takes for a failure.

`u_json_get_real` is left out, as are floating point numbers elsewhere.
-/
import Libu.Verif.Decimal
import Libu.Json.Encode
import Libu.Json.Array
import Libu.Misc.Number

namespace Libu.Json

open Verif Libu.Number

/-! ## 1. The code -/

/-- `u_json_array_count` -/
def arrayCount (jo : JsonNode) : Nat := if jo.type = .array then jo.count else 0

/-- `u_json_get_val` -/
def getVal (jo : JsonNode) : Option (List Char) :=
  match jo.type with
  | .string | .number => some jo.val
  | .true => some ['t', 'r', 'u', 'e']
  | .false => some ['f', 'a', 'l', 's', 'e']
  | .null => some ['n', 'u', 'l', 'l']
  | .object | .array | .unknown => none

/-- `u_json_get_int`: what it stores when it succeeds, and `errno`. -/
def getInt (jo : JsonNode) (errno : Int) : Option Int × Int :=
  if jo.type = .number then uAtol jo.val errno else (none, errno)

/-- `u_json_get_bool` -/
def getBool (jo : JsonNode) : Option Bool :=
  match jo.type with
  | .true => some true
  | .false => some false
  | _ => none

/-- What a caller has to store. -/
inductive Scalar
  | int (v : Int)
  | bool (b : Bool)

def Scalar.new : Scalar → Option Json
  | .int v => newInt none v
  | .bool b => newBool none b

/-- A client that makes an array, value by value. -/
def addScalars (jo : Json) : List Scalar → Option Json
  | [] => some jo
  | v :: vs => do
    let elem ← v.new
    let jo ← jo.add elem
    addScalars jo vs

def ofScalars (vs : List Scalar) : Option Json := do
  let jo ← newArray none
  addScalars jo vs

/-! ## 2. The text of a long -/

theorem number_toString (v : Int) : Json.Number (toString v).toList := by
  have hint : IntPart (Nat.toDigits 10 v.natAbs) := by
    by_cases h0 : v.natAbs = 0
    · rw [h0]
      exact .zero
    · obtain ⟨d, ds, hd, hne⟩ := toDigits_eq_cons (Nat.pos_of_ne_zero h0)
      have hall := allIn_toDigits v.natAbs
      rw [hd] at hall ⊢
      exact .pos (hall d List.mem_cons_self) hne fun c hc => hall c (List.mem_cons_of_mem d hc)
  rw [toList_toString, minusSign]
  split
  · simpa using Json.Number.minus hint .none .none
  · simpa using Json.Number.unsigned hint .none .none

theorem digitsVal_toDigits (n : Nat) : digitsVal (Nat.toDigits 10 n) = n :=
  Nat.ofDigitChars_ten_toDigits

theorem numeral_toString (v : Int) : Numeral (toString v).toList v := by
  have hsgn : IsSign (minusSign v) (decide (v < 0)) := by
    rw [IsSign, minusSign]
    by_cases hv : v < 0 <;> simp [hv]
  have htext : (toString v).toList = [] ++ (minusSign v ++ (Nat.toDigits 10 v.natAbs ++ [])) := by
    rw [toList_toString, List.append_nil, List.nil_append]
  refine .mk htext allIn_nil hsgn Nat.toDigits_ne_nil (allIn_toDigits _) stops_nil ?_
  rw [digitsVal_toDigits, signed]
  by_cases hv : v < 0
  · simp only [hv, decide_true, if_true]
    omega
  · simp only [hv, decide_false, Bool.false_eq_true, if_false]
    omega

/-- A long has at most 19 digits. -/
theorem length_toString_lt {v : Int} (hv : longMin ≤ v ∧ v ≤ longMax) :
    (toString v).toList.length < tokenSz - 1 := by
  have hlen : (toString v).toList.length ≤ 19 + 1 := by
    refine length_toString_le (by decide) ?_
    simp only [longMin, longMax] at hv
    omega
  exact Nat.lt_of_le_of_lt hlen (by decide)

/-! ## 3. Arrays of values -/

/-- The node that holds a value. -/
def Scalar.node : Scalar → JsonNode
  | .int v => ⟨.number, [], (toString v).toList, 0, 0⟩
  | .bool b => ⟨if b then .true else .false, [], [], 0, 0⟩

def scalarNodes : List Scalar → Forest JsonNode
  | [] => .nil
  | v :: vs => .node v.node .nil (scalarNodes vs)

/-- The array of some values. -/
def scalarArray (vs : List Scalar) : Json :=
  ⟨⟨.array, [], [], 0, vs.length % 2 ^ 32⟩, scalarNodes vs⟩

/-- An integer is a long. -/
def Scalar.Fits : Scalar → Prop
  | .int v => longMin ≤ v ∧ v ≤ longMax
  | .bool _ => True

/-- `jo` gives the value back, unless `errno` makes `u_atol` take the number for a failure. -/
def Scalar.Survives (errno : Int) (jo : JsonNode) : Scalar → Prop
  | .int v => getVal jo = some (toString v).toList ∧ getBool jo = none ∧
      getInt jo errno = (if AtolBad v errno then none else some v, errno)
  | .bool b => getBool jo = some b ∧ getInt jo errno = (none, errno)

section

variable {v : Scalar} {vs : List Scalar} {e : Int}

theorem Scalar.new_eq (hv : v.Fits) : v.new = some ⟨v.node, .nil⟩ := by
  cases v with
  | int v =>
    have hlen : (toString v).toList.length < tokenSz :=
      Nat.lt_of_lt_of_le (length_toString_lt hv) (Nat.sub_le _ _)
    have hcopy : strlcpy (toString v).toList = some (toString v).toList := if_pos hlen
    change (do
      let val ← strlcpy (toString v).toList
      return (⟨⟨.number, [], val, 0, 0⟩, .nil⟩ : Json)) = _
    rw [hcopy]
    rfl
  | bool b => cases b <;> rfl

theorem addScalars_eq (hvs : ∀ v ∈ vs, v.Fits) (n : Nat) (c : Forest JsonNode) :
    addScalars ⟨⟨.array, [], [], 0, n % 2 ^ 32⟩, c⟩ vs =
      some ⟨⟨.array, [], [], 0, (n + vs.length) % 2 ^ 32⟩, c.append (scalarNodes vs)⟩ := by
  induction vs generalizing n c with
  | nil => simp [addScalars, scalarNodes]
  | cons v vs ih =>
    have hadd : Json.add ⟨⟨.array, [], [], 0, n % 2 ^ 32⟩, c⟩ ⟨v.node, .nil⟩ =
        some ⟨⟨.array, [], [], 0, (n + 1) % 2 ^ 32⟩, c.append (.node v.node .nil .nil)⟩ := by
      simp [Json.add, isContainer, Json.root]
    have hcount : n + 1 + vs.length = n + (v :: vs).length := by
      rw [List.length_cons]
      omega
    rw [addScalars, Scalar.new_eq (hvs v List.mem_cons_self)]
    simp only [Option.bind_eq_bind, Option.bind_some, hadd]
    rw [ih (fun w hw => hvs w (List.mem_cons_of_mem v hw)), Forest.append_assoc, hcount]
    rfl

theorem length_scalarNodes (vs : List Scalar) : (scalarNodes vs).length = vs.length := by
  induction vs with
  | nil => rfl
  | cons v vs ih => simp [scalarNodes, Forest.length, ih]

theorem ofScalars_eq (hvs : ∀ v ∈ vs, v.Fits) : ofScalars vs = some (scalarArray vs) := by
  have hadd := addScalars_eq hvs 0 .nil
  rw [Nat.zero_add] at hadd
  exact hadd

/-- What the encoder relies on, for the elements. -/
theorem scalarNodes_wellBuilt (hvs : ∀ v ∈ vs, v.Fits) :
    let f := (scalarNodes vs).map JsonNode.item
    Shaped false f ∧ Named false f ∧ f.AllAt (LexItem codePlain) 1 ∧
      f.AllAt (fun d _ => d < jsonMaxDepth) 1 ∧
      f.AllAt (fun _ i => i.key.length < tokenSz - 1 ∧ i.val.length < tokenSz - 1) 1 := by
  have hempty : ([] : List Char).length < tokenSz - 1 := by decide
  have hdepth : 1 < jsonMaxDepth := by decide
  have hfalse : false ≠ true := Bool.false_ne_true
  have hnumber : JsonType.number ≠ .string := by decide
  induction vs with
  | nil => simp [scalarNodes, Shaped, Named]
  | cons v vs ih =>
    obtain ⟨hshape, hname, hlex, hdeep, hshort⟩ := ih fun w hw => hvs w (List.mem_cons_of_mem v hw)
    have hv := hvs v List.mem_cons_self
    cases v with
    | int v =>
      refine ⟨⟨fun _ => rfl, rfl, hshape⟩, ⟨fun h => absurd h hfalse, trivial, hname⟩, ?_, ?_, ?_⟩
      · exact ⟨⟨.nil, fun h => absurd h hnumber, fun _ => number_toString v⟩, trivial, hlex⟩
      · exact ⟨hdepth, trivial, hdeep⟩
      · exact ⟨⟨hempty, length_toString_lt hv⟩, trivial, hshort⟩
    | bool b =>
      have hlit : (Scalar.bool b).node.type ≠ .string ∧ (Scalar.bool b).node.type ≠ .number := by
        cases b <;> exact ⟨by decide, by decide⟩
      have hlex' : LexItem codePlain 1 (Scalar.bool b).node.item :=
        ⟨.nil, fun h => absurd h hlit.1, fun h => absurd h hlit.2⟩
      cases b <;>
        exact ⟨⟨fun _ => rfl, ⟨rfl, rfl⟩, hshape⟩, ⟨fun h => absurd h hfalse, trivial, hname⟩,
          ⟨hlex', trivial, hlex⟩, ⟨hdepth, trivial, hdeep⟩, ⟨⟨hempty, hempty⟩, trivial, hshort⟩⟩

/-- A node with the type and the text of a value gives it back. -/
theorem Scalar.survives_item {jo : JsonNode} (hv : v.Fits) (h : jo.item = v.node.item) :
    v.Survives e jo := by
  cases v with
  | int v =>
    have htype : jo.type = .number := congrArg JsonItem.type h
    have hval : jo.val = (toString v).toList := congrArg JsonItem.val h
    have hint := uAtol_of_numeral (e := e) (numeral_toString v)
    refine ⟨by simp [getVal, htype, hval], by simp [getBool, htype], ?_⟩
    rw [getInt, if_pos htype, hval, hint]
    by_cases hbad : AtolBad v e
    · simp [hbad]
    · rw [if_pos ⟨hv, hbad⟩, if_neg hbad]
  | bool b =>
    have htype : jo.type = if b then .true else .false := congrArg JsonItem.type h
    cases b <;> exact ⟨by simp [getBool, htype], by simp [getInt, htype]⟩

theorem survives_nodes {c : Forest JsonNode} (hvs : ∀ v ∈ vs, v.Fits)
    (h : c.map JsonNode.item = (scalarNodes vs).map JsonNode.item) :
    List.Forall₂ (fun v m => Scalar.Survives e m.1 v) vs c.heads := by
  induction vs generalizing c with
  | nil =>
    obtain rfl := Forest.map_eq_nil.mp h
    exact .nil
  | cons v vs ih =>
    cases c with
    | nil => cases h
    | node a c s =>
      obtain ⟨hitem, -, hrest⟩ := Forest.node.inj h
      exact .cons (Scalar.survives_item (hvs v List.mem_cons_self) hitem)
        (ih (fun w hw => hvs w (List.mem_cons_of_mem v hw)) hrest)

/-- **The values of an array come out of its text.**  Whatever longs and booleans are put into an
array, it is encoded to a text that decodes to an array which counts them and gives each of them
back, in their order: a boolean always, a number unless `errno` has been left at `EINVAL` and it is
zero, or at `ERANGE` and it is the least or the greatest long. -/
theorem ofScalars_survive (vs : List Scalar) (hvs : ∀ v ∈ vs, v.Fits) (e : Int) :
    ∃ jo t jo', ofScalars vs = some jo ∧ encode jo = some t ∧ decode t = .ok jo' ∧
      arrayCount jo'.toJsonNode = vs.length % 2 ^ 32 ∧
      List.Forall₂ (fun v m => Scalar.Survives e m.1 v) vs jo'.children.heads := by
  have hempty : ([] : List Char).length < tokenSz - 1 := by decide
  have hdepth : 0 < jsonMaxDepth := by decide
  have harray : JsonType.array ≠ .string ∧ JsonType.array ≠ .number := ⟨by decide, by decide⟩
  obtain ⟨hshape, hname, hlex, hdeep, hshort⟩ := scalarNodes_wellBuilt hvs
  have hround : ∃ t jo', encode (scalarArray vs) = some t ∧ decode t = .ok jo' ∧
      jo'.tree = (scalarArray vs).tree :=
    decode_encode rfl rfl ⟨fun _ => rfl, ⟨rfl, hshape⟩, trivial⟩
      ⟨⟨.nil, fun h => absurd h harray.1, fun h => absurd h harray.2⟩, hlex, trivial⟩
      ⟨fun h => absurd h Bool.false_ne_true, hname, trivial⟩ ⟨hdepth, hdeep, trivial⟩
      ⟨⟨hempty, hempty⟩, hshort, trivial⟩
  obtain ⟨t, jo', henc, hdec, htree⟩ := hround
  obtain ⟨hitem, hchildren, -⟩ := Forest.node.inj htree
  have htype : jo'.type = .array := congrArg JsonItem.type hitem
  have hlen : jo'.children.length = vs.length := by
    have hmap := congrArg Forest.length hchildren
    rw [Forest.length_map, Forest.length_map] at hmap
    exact hmap.trans (length_scalarNodes vs)
  refine ⟨_, t, jo', ofScalars_eq hvs, henc, hdec, ?_, survives_nodes hvs hchildren⟩
  rw [arrayCount, if_pos htype, (counts_root.mp (decode_counts hdec)).1 htype, hlen]

/-- With `errno` at `ERANGE`, the greatest long is lost and zero is not. -/
theorem ofScalars_survive_erange : ∃ jo t jo',
    ofScalars [.int longMax, .int 0, .bool true] = some jo ∧ encode jo = some t ∧
      decode t = .ok jo' ∧ arrayCount jo'.toJsonNode = 3 % 2 ^ 32 ∧
      List.Forall₂ (fun v m => Scalar.Survives erange m.1 v) [.int longMax, .int 0, .bool true]
        jo'.children.heads :=
  ofScalars_survive [.int longMax, .int 0, .bool true] (by simp [Scalar.Fits, longMin, longMax])
    erange

end

end Libu.Json
