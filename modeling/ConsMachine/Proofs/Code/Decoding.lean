import ConsMachine.Code.Instruction

/-!
# Decoding

Code has one reading: from the start of an instruction, decoding gives this instruction and the
start of the next one, whatever comes after the code. Where decoding succeeds, it has read the words
that the instruction is encoded by; where it fails, the fault says what is missing.

## Main definitions

* `Failure.OfDecoding` — a fault of the code where an instruction is looked for.
* `Instruction.decodeRow` — so many instructions in a row, each with the address after it.
-/

namespace ConsMachine

namespace Opcode

variable {word : Int64} {op : Opcode}

/-- A word stands for the operation that has it for its number. -/
theorem ofCode?_eq_some : ofCode? word = some op ↔ op.code = word := by
  constructor
  · intro h
    have code_of_all : ∀ n < all.size, ∀ op, all[n]? = some op → op.code = Int64.ofNat n := by
      decide
    unfold ofCode? at h
    split at h
    · next hword =>
      have hlt : word.toNatClampNeg < all.size := (Array.getElem?_eq_some_iff.1 h).1
      rw [code_of_all _ hlt op h]
      exact Int64.ofNat_toNatClampNeg word hword
    · cases h
  · rintro rfl
    exact ofCode?_code op

theorem code_injective {op op' : Opcode} (h : op.code = op'.code) : op = op' :=
  Option.some.inj ((ofCode?_code op).symm.trans (h ▸ ofCode?_code op'))

/-- The numbers of the operations are those from 0 to 31. -/
theorem ofCode?_eq_none : ofCode? word = none ↔ ¬ (0 ≤ word ∧ word ≤ 31) := by
  have hsize : all.size = 32 := rfl
  have hclamp : (word.toNatClampNeg : Int) = word.toInt.toNat := rfl
  have hlast : (31 : Int64).toInt = 31 := rfl
  unfold ofCode?
  split
  · next hword =>
    rw [Array.getElem?_eq_none_iff]
    rw [Int64.le_iff_toInt_le, Int64.toInt_zero] at hword
    simp only [Int64.le_iff_toInt_le, Int64.toInt_zero]
    omega
  · next hword => simp [hword]

theorem code_mem_range (op : Opcode) : 0 ≤ op.code ∧ op.code ≤ 31 := by
  cases op <;> decide

end Opcode

/-- The faults that decoding ends in. -/
@[grind cases]
inductive Failure.OfDecoding : Failure → Prop
  | illegalInstruction (word : Int64) (address : Nat) :
    OfDecoding (.fault (.illegalInstruction word address))
  | missingOperands (address : Nat) : OfDecoding (.fault (.missingOperands address))
  | outsideCode (address : Nat) : OfDecoding (.fault (.outsideCode address))

namespace Instruction

variable {code : Array Int64} {address next : Nat} {i : Instruction}

/-! ## One instruction -/

/-- At an address there is no word, no operation, or an operation with words for its operands or
without. -/
theorem decode_cases (code : Array Int64) (address : Nat) :
    (code.size ≤ address ∧ decode code address = .error (.outsideCode address)) ∨
      (∃ word, code[address]? = some word ∧ ¬ (0 ≤ word ∧ word ≤ 31) ∧
        decode code address = .error (.illegalInstruction word address)) ∨
      ∃ op : Opcode, code[address]? = some op.code ∧
        decode code address =
          if address + 1 + op.arity ≤ code.size then
            .ok (⟨op, (code.extract (address + 1) (address + 1 + op.arity)).toList⟩,
              address + 1 + op.arity)
          else .error (.missingOperands address) := by
  cases hword : code[address]? with
  | none => exact .inl ⟨Array.getElem?_eq_none_iff.1 hword, by simp only [decode, hword]⟩
  | some word =>
    cases hop : Opcode.ofCode? word with
    | none =>
      exact .inr (.inl ⟨word, rfl, Opcode.ofCode?_eq_none.1 hop, by simp only [decode, hword, hop]⟩)
    | some op =>
      obtain rfl := Opcode.ofCode?_eq_some.1 hop
      exact .inr (.inr ⟨op, rfl, by simp only [decode, hword, hop]⟩)

theorem extract_eq_cons {word : Int64} (hword : code[address]? = some word) (hlt : address < next) :
    (code.extract address next).toList = word :: (code.extract (address + 1) next).toList := by
  obtain ⟨hin, rfl⟩ := Array.getElem?_eq_some_iff.1 hword
  apply List.ext_getElem?
  intro k
  cases k <;> grind

/-- Decoding reads the words that the instruction is encoded by. -/
theorem decode_eq_ok : decode code address = .ok (i, next) ↔
    i.WellFormed ∧ next ≤ code.size ∧ i.encode = (code.extract address next).toList := by
  constructor
  · intro h
    refine ⟨wellFormed_of_decode h, (lt_of_decode h).2, ?_⟩
    rcases decode_cases code address with ⟨-, he⟩ | ⟨word, -, -, he⟩ | ⟨op, hop, he⟩
    · cases he.symm.trans h
    · cases he.symm.trans h
    · rw [h] at he
      split at he <;> cases he
      exact (extract_eq_cons hop (by omega)).symm
  · rintro ⟨hwf, hle, hencode⟩
    obtain ⟨opcode, operands⟩ := i
    have hlength := congrArg List.length hencode
    have hwf : operands.length = opcode.arity := hwf
    simp only [encode, List.length_cons, Array.length_toList, Array.size_extract] at hlength
    obtain ⟨word, hword⟩ : ∃ word, code[address]? = some word :=
      ⟨_, Array.getElem?_eq_getElem (by omega)⟩
    rw [extract_eq_cons hword (by omega)] at hencode
    obtain ⟨rfl, rfl⟩ := List.cons.inj hencode
    have hnext : next = address + 1 + opcode.arity := by omega
    rcases decode_cases code address with ⟨hout, -⟩ | ⟨word, hother, hno, -⟩ | ⟨op, hop, he⟩
    · omega
    · cases hword.symm.trans hother
      exact absurd opcode.code_mem_range hno
    · obtain rfl := Opcode.code_injective (Option.some.inj (hop.symm.trans hword))
      rw [he, if_pos (by omega), hnext]

/-! ## Faults -/

theorem decode_eq_outsideCode :
    decode code address = .error (.outsideCode address) ↔ code.size ≤ address := by
  rcases decode_cases code address with ⟨hle, h⟩ | ⟨word, hword, -, h⟩ | ⟨op, hop, h⟩ <;> grind

theorem decode_eq_illegalInstruction {word : Int64} :
    decode code address = .error (.illegalInstruction word address) ↔
      code[address]? = some word ∧ ¬ (0 ≤ word ∧ word ≤ 31) := by
  rcases decode_cases code address with ⟨hle, h⟩ | ⟨other, hother, hno, h⟩ | ⟨op, hop, h⟩
  · grind
  · grind
  · have hcode := op.code_mem_range
    grind

theorem decode_eq_missingOperands :
    decode code address = .error (.missingOperands address) ↔
      ∃ op : Opcode, code[address]? = some op.code ∧ code.size < address + 1 + op.arity := by
  rcases decode_cases code address with ⟨hle, h⟩ | ⟨other, hother, hno, h⟩ | ⟨op, hop, h⟩
  · grind
  · have := Opcode.code_mem_range
    grind
  · have := @Opcode.code_injective
    grind

/-- No other fault is found in code. -/
theorem fault_of_decode {fault : Fault} (h : decode code address = .error fault) :
    fault = .outsideCode address ∨ (∃ word, fault = .illegalInstruction word address) ∨
      fault = .missingOperands address := by
  rcases decode_cases code address with ⟨-, h'⟩ | ⟨other, -, -, h'⟩ | ⟨op, -, h'⟩ <;> grind

theorem ofDecoding_of_decode {fault : Fault} (h : decode code address = .error fault) :
    (Failure.fault fault).OfDecoding := by
  rcases fault_of_decode h with rfl | ⟨word, rfl⟩ | rfl
  · exact .outsideCode address
  · exact .illegalInstruction word address
  · exact .missingOperands address

/-! ## Rows of instructions -/

/-- The next `count` instructions from `address` on, each with the address after it. -/
def decodeRow (code : Array Int64) : Nat → Nat → Except Fault (List (Instruction × Nat))
  | 0, _ => .ok []
  | count + 1, address =>
    match decode code address with
    | .error fault => .error fault
    | .ok (i, next) => (decodeRow code count next).map ((i, next) :: ·)

theorem decode_encode {before after : List Int64} (hi : i.WellFormed) :
    decode (before ++ (i.encode ++ after)).toArray before.length =
      .ok (i, before.length + i.encode.length) := by
  refine decode_eq_ok.2 ⟨hi, by simp, ?_⟩
  simp [List.extract_eq_take_drop]

/-- The address after an instruction of a row is where the code of the row up to it ends, and the
code of the next one starts. -/
theorem decodeRow_assemble {instructions : List Instruction} (before after : List Int64)
    (hwf : ∀ i ∈ instructions, i.WellFormed) :
    decodeRow (before ++ (assemble instructions ++ after)).toArray instructions.length
        before.length =
      .ok (instructions.mapIdx fun k i =>
        (i, before.length + (assemble (instructions.take (k + 1))).length)) := by
  induction instructions generalizing before with
  | nil => rfl
  | cons i rest ih =>
    have hsplit : assemble (i :: rest) ++ after = i.encode ++ (assemble rest ++ after) := by
      simp [assemble]
    have hrest := ih (before ++ i.encode) fun j hj => hwf j (List.mem_cons_of_mem i hj)
    rw [List.append_assoc, List.length_append] at hrest
    rw [hsplit, List.length_cons, decodeRow, decode_encode (hwf i List.mem_cons_self)]
    simp only [hrest]
    simp [Except.map, assemble, List.mapIdx_cons, Nat.add_assoc]

/-- The code of well-formed instructions is decoded into these instructions and no others, one after
the other, whatever follows the code. Decoding at any address gives a well-formed instruction with
the address where its code ends, or else one of three faults, each for its own reason. -/
theorem decode_inverts_assemble :
    (∀ (instructions : List Instruction) (suffix : List Int64), (∀ i ∈ instructions, i.WellFormed) →
      decodeRow (assemble instructions ++ suffix).toArray instructions.length 0 =
        .ok (instructions.mapIdx fun k i =>
          (i, (assemble (instructions.take (k + 1))).length))) ∧
    ∀ (code : Array Int64) (address : Nat),
      (∀ i next, decode code address = .ok (i, next) →
        i.WellFormed ∧ next ≤ code.size ∧ i.encode = (code.extract address next).toList) ∧
      (decode code address = .error (.outsideCode address) ↔ code.size ≤ address) ∧
      (∀ word, decode code address = .error (.illegalInstruction word address) ↔
        code[address]? = some word ∧ ¬ (0 ≤ word ∧ word ≤ 31)) ∧
      (decode code address = .error (.missingOperands address) ↔
        ∃ op : Opcode, code[address]? = some op.code ∧ code.size < address + 1 + op.arity) ∧
      ∀ fault, decode code address = .error fault →
        fault = .outsideCode address ∨ (∃ word, fault = .illegalInstruction word address) ∨
          fault = .missingOperands address := by
  refine ⟨fun instructions suffix hwf => ?_, fun code address => ?_⟩
  · simpa using decodeRow_assemble [] suffix hwf
  · exact ⟨fun i next h => decode_eq_ok.1 h, decode_eq_outsideCode,
      fun word => decode_eq_illegalInstruction, decode_eq_missingOperands,
      fun fault => fault_of_decode⟩

/-- A tail call, a negative constant and the end, with two words after them that are no
instruction. -/
theorem decode_inverts_assemble_of_three :
    (∀ i ∈ ([⟨.tcall, [2, 1, 9]⟩, ⟨.csti, [-4]⟩, ⟨.stop, []⟩] : List Instruction), i.WellFormed) ∧
      decodeRow #[20, 2, 1, 9, 0, -4, 25, 99, 19] 3 0 =
        .ok [(⟨.tcall, [2, 1, 9]⟩, 4), (⟨.csti, [-4]⟩, 6), (⟨.stop, []⟩, 7)] :=
  ⟨by decide, decode_inverts_assemble.1 [⟨.tcall, [2, 1, 9]⟩, ⟨.csti, [-4]⟩, ⟨.stop, []⟩] [99, 19]
    (by decide)⟩

end Instruction

end ConsMachine
