import ValueTrace.Proofs.Json.Fields

/-! Code that is printed as JSON is loaded as it was, as long as it has no decimals. -/
namespace ValueTrace

open Json

variable {d : Nat}

namespace Op

theorem mem_all (op : Op) : op ∈ all := by
  cases op <;> decide +kernel

theorem mnemonic_nodup : (all.map mnemonic).Nodup := by
  decide +kernel

theorem ofMnemonic?_mnemonic (op : Op) : ofMnemonic? op.mnemonic = some op := by
  have hfound : (ofMnemonic? op.mnemonic).isSome := by
    rw [ofMnemonic?, List.find?_isSome]
    exact ⟨op, op.mem_all, by simp⟩
  obtain ⟨k, hk⟩ := Option.isSome_iff_exists.mp hfound
  have hname : k.mnemonic = op.mnemonic := by simpa using List.find?_some hk
  rw [hk, List.inj_on_of_nodup_map mnemonic_nodup k.mem_all op.mem_all hname]

end Op

/-- The numbers of the instruction fit the words that it keeps them in, of 64 bits for positions and
of 32 bits else. -/
def Instruction.inWords (i : Instruction) : Bool :=
  i.index < Word.bound64 && i.arg.all (· < Word.bound32) && i.line < Word.bound32 &&
    i.target.all (· < Word.bound64)

def Block.inWords (b : Block) : Bool := b.id < Word.bound64 && b.ops.all Instruction.inWords

theorem Instruction.readsAs {i : Instruction} (h : i.inWords = true) :
    ReadsAs Instruction.ofJson? i.toJson i := by
  intro d
  cases d with
  | zero => rfl
  | succ d =>
    have hdepth : i.toJson.depth ≤ d + 1 := by
      simp [Instruction.toJson, depth_record_le]
    have hfields : i.toJson.fields? ["index", "name", "arg", "line", "target"] =
        some [some (.nat i.index), some (.text i.op.mnemonic), some (Json.option .nat i.arg),
          some (.nat i.line), some (Json.option .nat i.target)] :=
      fields?_record rfl (by decide)
    simp only [Instruction.inWords, Bool.and_eq_true, decide_eq_true_eq] at h
    obtain ⟨⟨⟨hindex, harg⟩, hline⟩, htarget⟩ := h
    have hop : Op.ofJson? d (.text i.op.mnemonic) = some i.op := by
      cases d <;> exact i.op.ofMnemonic?_mnemonic
    have hline32 : orDefault? 0 (natBelow? Word.bound32) (some (.nat i.line)) = some i.line :=
      natBelow?_nat hline (by decide)
    rw [if_pos hdepth, Instruction.ofJson?, hfields, Option.bind_eq_bind, Option.bind_some]
    dsimp only
    rw [natBelow?_nat hindex (Nat.le_refl _), hop, nullable?_option harg (by decide), hline32,
      nullable?_option htarget (Nat.le_refl _)]
    rfl

theorem Block.depth_toJson_le (b : Block) :
    b.toJson.depth ≤ d + 1 ↔ (Json.list Instruction.toJson b.ops).depth ≤ d := by
  simp [Block.toJson, depth_record_le]

theorem Block.readsAs {b : Block} (h : b.inWords = true) : ReadsAs Block.ofJson? b.toJson b := by
  intro d
  match d with
  | 0 => rfl
  | 1 =>
    rw [if_neg (b.depth_toJson_le.not.mpr (Nat.not_le.mpr (depth_list_pos _ b.ops)))]
    rfl
  | d + 2 =>
    have hfields : b.toJson.fields? ["id", "ops"] =
        some [some (.nat b.id), some (.list Instruction.toJson b.ops)] :=
      fields?_record rfl (by decide)
    simp only [Block.inWords, Bool.and_eq_true, decide_eq_true_eq, List.all_eq_true] at h
    obtain ⟨hid, hops⟩ := h
    have hlist := ReadsAs.list? (fun i hi => Instruction.readsAs (hops i hi)) d
    rw [Block.ofJson?, hfields, Option.bind_eq_bind, Option.bind_some]
    dsimp only
    rw [natBelow?_nat hid (Nat.le_refl _), hlist]
    by_cases hdepth : (Json.list Instruction.toJson b.ops).depth ≤ d + 1
    · rw [if_pos hdepth, if_pos ((depth_toJson_le b).mpr hdepth)]
      rfl
    · rw [if_neg hdepth, if_neg fun h => hdepth ((depth_toJson_le b).mp h)]
      rfl

def Constant.isDecimal : Constant → Bool
  | .float _ | .complex _ _ => true
  | _ => false

def Constant.inWord : Constant → Bool
  | .int n => Word.holds n
  | _ => true

def Code.inWords (c : Code) : Bool := c.firstLine < Word.bound32 && c.blocks.all Block.inWords

mutual

def Constant.everywhere (p : Constant → Bool) (q : Code → Bool) : Constant → Bool
  | .tuple items => Constant.allEverywhere p q items
  | .code c => Code.everywhere p q c
  | c => p c

def Constant.allEverywhere (p : Constant → Bool) (q : Code → Bool) : List Constant → Bool
  | [] => true
  | c :: cs => Constant.everywhere p q c && Constant.allEverywhere p q cs

def Code.everywhere (p : Constant → Bool) (q : Code → Bool) : Code → Bool
  | ⟨name, filename, line, args, kwonly, flags, vars, names, consts, cells, free, blocks⟩ =>
    q ⟨name, filename, line, args, kwonly, flags, vars, names, consts, cells, free, blocks⟩ &&
      Constant.allEverywhere p q consts

end

def Code.sized (c : Code) : Bool := c.everywhere Constant.inWord Code.inWords

def Code.decimalFree (c : Code) : Bool := c.everywhere (!·.isDecimal) fun _ => true

theorem Constant.allToJson_eq (cs : List Constant) :
    Constant.allToJson cs = cs.map Constant.toJson := by
  induction cs with
  | nil => rfl
  | cons c cs ih => rw [Constant.allToJson, ih, List.map_cons]

namespace Constant

/-- A value with its case is read where the value is, with one container more. -/
theorem readsAs_case {c : Constant} {name : String} {v : Json} (hc : c.toJson = .case name v)
    (hzero : ofJson? 0 c.toJson = Option.none)
    (hsucc : ∀ d, ofJson? (d + 1) c.toJson = if v.depth ≤ d then some c else Option.none) :
    ReadsAs ofJson? c.toJson c := by
  intro d
  cases d with
  | zero => rw [hc, if_neg (Nat.not_le.mpr (depth_case_pos name v)), ← hc, hzero]
  | succ d => rw [hsucc, hc, if_congr (depth_case_le name v) rfl rfl]

theorem readsAs_int {n : Int} (h : Word.holds n = true) :
    ReadsAs ofJson? (toJson (.int n)) (.int n) := by
  apply readsAs_case rfl rfl
  intro d
  change (Json.int n).int64?.map Constant.int = _
  rw [int64?_int h, depth_int, if_pos d.zero_le]
  rfl

theorem readsAs_bytes (bs : List UInt8) : ReadsAs ofJson? (toJson (.bytes bs)) (.bytes bs) := by
  apply readsAs_case rfl rfl
  intro d
  cases d with
  | zero =>
    rw [if_neg (Nat.not_le.mpr (depth_list_pos _ bs))]
    rfl
  | succ d =>
    have hbyte : ∀ b ∈ bs, ((Json.nat b.toNat).natBelow? 256).map UInt8.ofNat = some b := by
      intro b _
      rw [natBelow?_nat b.toNat_lt (by decide), Option.map_some, UInt8.ofNat_toNat]
    have hlist := list?_list (f := fun v => (v.natBelow? 256).map UInt8.ofNat) hbyte
    have hdepth : (Json.list (fun b : UInt8 => Json.nat b.toNat) bs).depth ≤ d + 1 := by
      simp [depth_list_le]
    rw [if_pos hdepth]
    change (Json.list? _ _).map Constant.bytes = _
    rw [hlist]
    rfl

theorem readsAs_tuple {items : List Constant} (h : ∀ c ∈ items, ReadsAs ofJson? c.toJson c) :
    ReadsAs ofJson? (toJson (.tuple items)) (.tuple items) := by
  have hitems : toJson (.tuple items) = .case "Tuple" (.list toJson items) := by
    rw [toJson, allToJson_eq]
    rfl
  apply readsAs_case hitems rfl
  intro d
  rw [hitems]
  cases d with
  | zero =>
    rw [if_neg (Nat.not_le.mpr (depth_list_pos _ items))]
    rfl
  | succ d =>
    change (Json.list? (ofJson? d) (Json.list toJson items)).map Constant.tuple = _
    rw [ReadsAs.list? h]
    split_ifs <;> rfl

theorem readsAs_code {c : Code} (h : ReadsAs Code.ofJson? c.toJson c) :
    ReadsAs ofJson? (toJson (.code c)) (.code c) := by
  apply readsAs_case rfl rfl
  intro d
  change (Code.ofJson? d c.toJson).map Constant.code = _
  rw [h]
  split_ifs <;> rfl

end Constant

namespace Code

variable {c : Code}

theorem toJson_eq (c : Code) : c.toJson =
    .record [("name", .text c.name), ("filename", .text c.filename),
      ("first_line", .nat c.firstLine), ("arg_count", .nat c.argCount.toNat),
      ("kwonly_arg_count", .nat c.kwonlyArgCount.toNat), ("flags", .nat c.flags.toNat),
      ("varnames", .list .text c.varnames), ("names", .list .text c.names),
      ("consts", .list Constant.toJson c.consts), ("cellvars", .list .text c.cellvars),
      ("freevars", .list .text c.freevars), ("blocks", .list Block.toJson c.blocks)] := by
  cases c
  rw [toJson, Constant.allToJson_eq]
  rfl

theorem depth_toJson_le (c : Code) : c.toJson.depth ≤ d + 2 ↔
    (Json.list Constant.toJson c.consts).depth ≤ d + 1 ∧
      (Json.list Block.toJson c.blocks).depth ≤ d + 1 := by
  have htexts (l : List String) : (Json.list .text l).depth ≤ d + 1 := by simp [depth_list_le]
  simp [toJson_eq, depth_record_le, htexts]

theorem depth_toJson_ne (c : Code) : ¬ c.toJson.depth ≤ 1 := by
  simp [toJson_eq, depth_record_le, Nat.ne_of_gt (depth_list_pos Block.toJson c.blocks)]

theorem readsAs_of_consts (hw : c.inWords = true)
    (h : ∀ k ∈ c.consts, ReadsAs Constant.ofJson? k.toJson k) : ReadsAs ofJson? c.toJson c := by
  intro d
  match d with
  | 0 =>
    rw [if_neg fun h => c.depth_toJson_ne (Nat.le_succ_of_le h)]
    rfl
  | 1 =>
    rw [if_neg c.depth_toJson_ne]
    rfl
  | d + 2 =>
    have hfields : c.toJson.fields? fieldNames = some [some (.text c.name), some (.text c.filename),
        some (.nat c.firstLine), some (.nat c.argCount.toNat), some (.nat c.kwonlyArgCount.toNat),
        some (.nat c.flags.toNat), some (.list .text c.varnames), some (.list .text c.names),
        some (.list Constant.toJson c.consts), some (.list .text c.cellvars),
        some (.list .text c.freevars), some (.list Block.toJson c.blocks)] := by
      rw [toJson_eq]
      exact fields?_record rfl (by decide)
    simp only [inWords, Bool.and_eq_true, decide_eq_true_eq, List.all_eq_true] at hw
    obtain ⟨hfirst, hfit⟩ := hw
    have hline : orDefault? 0 (natBelow? Word.bound32) (some (.nat c.firstLine)) =
        some c.firstLine := natBelow?_nat hfirst (by decide)
    have hconsts := ReadsAs.list? h d
    have hblocks := ReadsAs.list? (fun b hb => Block.readsAs (hfit b hb)) d
    rw [ofJson?, hfields, Option.bind_eq_bind, Option.bind_some]
    dsimp only
    rw [hline, texts?_list, texts?_list, texts?_list, texts?_list, word64?_nat, word64?_nat,
      word32?_nat]
    simp only [text?, text, orDefault?]
    rw [hconsts, hblocks]
    by_cases hc : (Json.list Constant.toJson c.consts).depth ≤ d + 1
    · by_cases hb : (Json.list Block.toJson c.blocks).depth ≤ d + 1
      · rw [if_pos hc, if_pos hb, if_pos (c.depth_toJson_le.mpr ⟨hc, hb⟩)]
        cases c
        rfl
      · rw [if_pos hc, if_neg hb, if_neg fun h => hb (c.depth_toJson_le.mp h).2]
        rfl
    · rw [if_neg hc, if_neg fun h => hc (c.depth_toJson_le.mp h).1]
      rfl

end Code

-- Code holds constants and constants hold code, so the induction is on both at once.
mutual

theorem Constant.readsAs (c : Constant) (hs : c.everywhere Constant.inWord Code.inWords = true)
    (hf : c.everywhere (!·.isDecimal) (fun _ => true) = true) :
    ReadsAs Constant.ofJson? c.toJson c := by
  match c with
  | .none =>
    intro d
    cases d <;> rfl
  | .ellipsis =>
    intro d
    cases d <;> rfl
  | .bool b => exact Constant.readsAs_case rfl rfl fun d => (if_pos d.zero_le).symm
  | .int n => exact Constant.readsAs_int hs
  | .float _ => cases hf
  | .complex _ _ => cases hf
  | .str s => exact Constant.readsAs_case rfl rfl fun d => (if_pos d.zero_le).symm
  | .unicode s => exact Constant.readsAs_case rfl rfl fun d => (if_pos d.zero_le).symm
  | .bytes bs => exact Constant.readsAs_bytes bs
  | .tuple items => exact Constant.readsAs_tuple (Constant.allReadsAs items hs hf)
  | .code c => exact Constant.readsAs_code (Code.readsAs c hs hf)

theorem Constant.allReadsAs (cs : List Constant)
    (hs : Constant.allEverywhere Constant.inWord Code.inWords cs = true)
    (hf : Constant.allEverywhere (!·.isDecimal) (fun _ => true) cs = true) :
    ∀ c ∈ cs, ReadsAs Constant.ofJson? c.toJson c := by
  match cs with
  | [] => exact List.forall_mem_nil _
  | c :: cs =>
    rw [Constant.allEverywhere, Bool.and_eq_true] at hs hf
    have hc := Constant.readsAs c hs.1 hf.1
    have hcs := Constant.allReadsAs cs hs.2 hf.2
    exact List.forall_mem_cons.mpr ⟨hc, hcs⟩

theorem Code.readsAs (c : Code) (hs : c.everywhere Constant.inWord Code.inWords = true)
    (hf : c.everywhere (!·.isDecimal) (fun _ => true) = true) :
    ReadsAs Code.ofJson? c.toJson c := by
  match c with
  | ⟨name, filename, line, args, kwonly, flags, vars, names, consts, cells, free, blocks⟩ =>
    rw [Code.everywhere, Bool.and_eq_true] at hs hf
    exact Code.readsAs_of_consts hs.1 (Constant.allReadsAs consts hs.2 hf.2)

end

theorem Instruction.plain (i : Instruction) : i.toJson.Plain := by
  apply Json.Plain.record
  simp

theorem Block.plain (b : Block) : b.toJson.Plain := by
  have hops : (Json.list Instruction.toJson b.ops).Plain := .list fun i _ => i.plain
  apply Json.Plain.record
  simpa using hops

theorem Code.plain_of_consts {c : Code} (h : ∀ k ∈ c.consts, k.toJson.Plain) : c.toJson.Plain := by
  have hconsts : (Json.list Constant.toJson c.consts).Plain := .list h
  have hblocks : (Json.list Block.toJson c.blocks).Plain := .list fun b _ => b.plain
  rw [Code.toJson_eq]
  apply Json.Plain.record
  simpa [Json.Plain.texts] using ⟨hconsts, hblocks⟩

mutual

theorem Constant.plain (c : Constant) (hf : c.everywhere (!·.isDecimal) (fun _ => true) = true) :
    c.toJson.Plain := by
  match c with
  | .none => exact .text "None"
  | .ellipsis => exact .text "Ellipsis"
  | .bool b => exact .case (.bool b)
  | .int n => exact .case (.int n)
  | .float _ => cases hf
  | .complex _ _ => cases hf
  | .str s => exact .case (.text s)
  | .unicode s => exact .case (.text s)
  | .bytes bs => exact .case (.list fun b _ => .nat b.toNat)
  | .tuple items =>
    rw [Constant.toJson, Constant.allToJson_eq]
    exact .case (.list (Constant.allPlain items hf))
  | .code c => exact .case (Code.plain c hf)

theorem Constant.allPlain (cs : List Constant)
    (hf : Constant.allEverywhere (!·.isDecimal) (fun _ => true) cs = true) :
    ∀ c ∈ cs, c.toJson.Plain := by
  match cs with
  | [] => exact List.forall_mem_nil _
  | c :: cs =>
    rw [Constant.allEverywhere, Bool.and_eq_true] at hf
    exact List.forall_mem_cons.mpr ⟨Constant.plain c hf.1, Constant.allPlain cs hf.2⟩

theorem Code.plain (c : Code) (hf : c.everywhere (!·.isDecimal) (fun _ => true) = true) :
    c.toJson.Plain := by
  match c with
  | ⟨name, filename, line, args, kwonly, flags, vars, names, consts, cells, free, blocks⟩ =>
    rw [Code.everywhere, Bool.and_eq_true] at hf
    exact Code.plain_of_consts (Constant.allPlain consts hf.2)

end

/-- Valid code without decimals is loaded as it was printed, where its containers nest within the
limit of the loader. It refuses to open the 128th of them. -/
theorem Code.load_print (c : Code) (hv : c.validate = .ok ()) (hs : c.sized = true)
    (hf : c.decimalFree = true) :
    Code.load c.print = if c.toJson.depth < 128 then .ok c else .error .malformed := by
  have hread : (Json.read? c.print).bind (Code.ofJson? Json.depthLimit) =
      if c.toJson.depth ≤ Json.depthLimit then some c else none := by
    rw [Code.print, Json.read?_layout (c.plain hf), Option.bind_some, c.readsAs hs hf]
  have hlimit : c.toJson.depth < 128 ↔ c.toJson.depth ≤ Json.depthLimit := Nat.lt_succ_iff
  rw [Code.load, hread, if_congr hlimit rfl rfl]
  by_cases hdepth : c.toJson.depth ≤ Json.depthLimit
  · rw [if_pos hdepth, if_pos hdepth]
    simp only [hv]
    rfl
  · rw [if_neg hdepth, if_neg hdepth]

/-- A function in a module, with a tuple of literals, both ends of the integers, and a text that
has to be escaped. Some instructions have an argument or a target, and others have none. -/
def nestedCode : Code where
  name := "<module>"
  filename := "m.py"
  firstLine := 1
  argCount := 0
  kwonlyArgCount := 0
  flags := 64
  varnames := []
  names := ["f"]
  consts := [
    .code {
      name := "f", filename := "m.py", firstLine := 1, argCount := 1, kwonlyArgCount := 0,
      flags := 67, varnames := ["a"], names := [], cellvars := [], freevars := [],
      consts := [.none, .tuple [.int 9223372036854775807, .int (-9223372036854775808), .bytes [0]]],
      blocks := [{ id := 0, ops := [
        { index := 0, op := .loadConst, arg := some 1, line := 1 },
        { index := 1, op := .returnValue, line := 1 }] }] },
    .str "\x00 \n \\ \" é 😀", .ellipsis]
  cellvars := []
  freevars := []
  blocks := [
    { id := 0, ops := [{ index := 0, op := .loadConst, arg := some 0, line := 1 },
      { index := 1, op := .jumpForward, arg := some 2, target := some 2, line := 1 }] },
    { id := 1, ops := [{ index := 2, op := .makeFunction, arg := some 0, line := 1 },
      { index := 3, op := .returnValue, line := 1 }] }]

theorem nestedCode_load_print_eq : nestedCode.validate = .ok () ∧ nestedCode.sized = true ∧
    nestedCode.decimalFree = true ∧ nestedCode.toJson.depth = 9 ∧
    Code.load nestedCode.print = .ok nestedCode := by
  have hv : nestedCode.validate = .ok () := by decide
  have hs : nestedCode.sized = true := by decide
  have hf : nestedCode.decimalFree = true := by decide
  have hdepth : nestedCode.toJson.depth = 9 := by decide
  refine ⟨hv, hs, hf, hdepth, ?_⟩
  rw [Code.load_print nestedCode hv hs hf, hdepth]
  rfl

end ValueTrace
