import Mathlib
import OctetMachine.Proofs.Instruction.Spelling
import OctetMachine.Proofs.Statement.Parsing
import OctetMachine.Proofs.Value.Magnitude

/-! The language of statements, told without the parser: which names an opcode has, which numbers an
operand may be, and where commas stand. The parser accepts exactly this language, takes nothing
beyond a statement, and complains about everything else. -/
namespace OctetMachine

/-- The names of an opcode: its mnemonic in any mixture of cases, and for one opcode another. -/
def Opcode.Named (op : Opcode) (name : String) : Prop :=
  Text.caseFolded name = Text.caseFolded op.mnemonic ∨
    op = .mov ∧ Text.caseFolded name = Text.caseFolded "MOVE"

/-- The operand that a number standing alone means at index `k`. -/
inductive Operand.Bare (op : Opcode) (k n : Nat) : Operand → Prop where
  | leading (first : k = 0) (plain : n % 256 ∉ [0xB0, 0xC0]) : Bare op k n (.literal n.toUInt8)
  | moved {w : Width} (later : 1 ≤ k) (move : op.moveWidth? = some w) (fits : n < 256 ^ w.bytes) :
      Bare op k n (.immediate (.ofNat w n))
  | inferred {w : Width} (later : 1 ≤ k) (move : op = .mov) (fits : n < 256 ^ w.bytes)
      (narrowest : ∀ w' : Width, n < 256 ^ w'.bytes → w.bytes ≤ w'.bytes) :
      Bare op k n (.immediate (.ofNat w n))
  | escaped (later : 1 ≤ k) (other : op.isMove = false)
      (tag : n % 256 ∈ [0xB0, 0xC0, 0xD0, 0xD1, 0xD2, 0xD3]) :
      Bare op k n (.immediate (.ofByte n.toUInt8))
  | raw (later : 1 ≤ k) (other : op.isMove = false)
      (plain : n % 256 ∉ [0xB0, 0xC0, 0xD0, 0xD1, 0xD2, 0xD3]) :
      Bare op k n (.literal n.toUInt8)

/-- The operand that tokens mean at index `k`. -/
inductive Operand.Written (op : Opcode) (k : Nat) : List Token → Operand → Prop where
  | reference {l : Literal} {n : Nat} (value : l.value = n) (small : n ≤ 255) :
      Written op k [.mark .openBracket, .literal l, .mark .closeBracket]
        (.reference (.ofByte n.toUInt8))
  | top {name : String} (keyword : Text.caseFolded name = Text.caseFolded "TOP")
      (readable : ¬ (k = 0 ∧ op.writesDestination = true)) : Written op k [.identifier name] .top
  | sized {name : String} {w : Width} {l : Literal} {n : Nat} (later : 1 ≤ k)
      (keyword : Text.caseFolded name = Text.caseFolded w.keyword) (value : l.value = n)
      (fits : n < 256 ^ w.bytes) (admitted : op.moveWidth? = none ∨ op.moveWidth? = some w) :
      Written op k [.identifier name, .literal l] (.immediate (.ofNat w n))
  | bare {l : Literal} {n : Nat} {o : Operand} (value : l.value = n) (means : Bare op k n o) :
      Written op k [.literal l] o

inductive StatementKind.Written : List Token → StatementKind → Prop where
  | label (name : String) : Written [.identifier name, .mark .colon] (.label name)
  | instruction {name : String} {i : Instruction} {parts : List (List Token)}
      (named : i.opcode.Named name) (arity : i.HasValidArity)
      (count : parts.length = i.operands.length)
      (operands : ∀ (k : Nat) (part : List Token) (o : Operand), parts[k]? = some part →
        i.operands[k]? = some o → o.Written i.opcode k part) :
      Written (.identifier name :: [.mark .comma].intercalate parts) (.instruction i)

section Names

theorem Opcode.ofMnemonic?_congr {a b : String} (same : Text.caseFolded a = Text.caseFolded b) :
    ofMnemonic? a = ofMnemonic? b := by
  unfold ofMnemonic? Text.sameSpelling
  rw [same]

theorem Width.ofKeyword?_congr {a b : String} (same : Text.caseFolded a = Text.caseFolded b) :
    ofKeyword? a = ofKeyword? b := by
  unfold ofKeyword? Text.sameSpelling
  rw [same]

theorem Opcode.ofMnemonic?_eq_some_iff {op : Opcode} {name : String} :
    ofMnemonic? name = some op ↔ op.Named name := by
  constructor
  · intro known
    unfold ofMnemonic? at known
    split at known
    · rename_i move
      cases known
      exact .inr ⟨rfl, (Text.sameSpelling_iff.mp move).symm⟩
    · have same := List.find?_some known
      exact .inl (Text.sameSpelling_iff.mp same).symm
  · rintro (same | ⟨rfl, same⟩)
    · rw [ofMnemonic?_congr same, ofMnemonic?_mnemonic]
    · rw [ofMnemonic?_congr same]
      rfl

theorem Width.ofKeyword?_eq_some_iff {w : Width} {name : String} :
    ofKeyword? name = some w ↔ Text.caseFolded name = Text.caseFolded w.keyword := by
  constructor
  · intro known
    exact (Text.sameSpelling_iff.mp (sameSpelling_of_ofKeyword? known)).symm
  · intro same
    rw [ofKeyword?_congr same, ofKeyword?_keyword]

end Names

section Numbers

theorem Tag.shadowsLeading_iff_toNat {b : UInt8} :
    shadowsLeading b = true ↔ b.toNat ∈ [0xB0, 0xC0] := by
  simp only [shadowsLeading_iff, ofByte?_eq_some_iff, ← UInt8.toNat_inj, List.mem_cons,
    List.not_mem_nil, or_false]
  rfl

theorem Tag.widthOf?_isSome_iff {b : UInt8} :
    (widthOf? b).isSome = true ↔ ∃ w, b = (Tag.sized w).byte := by
  rw [Option.isSome_iff_exists]
  constructor
  · rintro ⟨w, sized⟩
    exact ⟨w, eq_byte_of_widthOf? sized⟩
  · rintro ⟨w, rfl⟩
    exact ⟨w, widthOf?_byte_sized w⟩

theorem Tag.shadowsTrailing_iff_toNat {b : UInt8} :
    shadowsTrailing b = true ↔ b.toNat ∈ [0xB0, 0xC0, 0xD0, 0xD1, 0xD2, 0xD3] := by
  have widths : (∃ w, b = (Tag.sized w).byte) ↔ b.toNat ∈ [0xD0, 0xD1, 0xD2, 0xD3] := by
    simp only [← UInt8.toNat_inj, List.mem_cons, List.not_mem_nil, or_false]
    constructor
    · rintro ⟨w, same⟩
      cases w <;> simp [same, byte]
    · rintro (same | same | same | same)
      · exact ⟨.byte, same⟩
      · exact ⟨.word, same⟩
      · exact ⟨.doubleWord, same⟩
      · exact ⟨.quadWord, same⟩
  rw [shadowsTrailing, Bool.or_eq_true, shadowsLeading_iff_toNat, widthOf?_isSome_iff, widths]
  exact List.mem_append.symm

end Numbers

theorem Slot.ofIndex_eq_leading_iff {k : Nat} : ofIndex k = leading ↔ k = 0 := by
  cases k <;> simp [ofIndex]

theorem Slot.ofIndex_eq_trailing_iff {k : Nat} : ofIndex k = trailing ↔ 1 ≤ k := by
  cases k <;> simp [ofIndex]

theorem Opcode.eq_mov_iff {op : Opcode} :
    op = mov ↔ op.isMove = true ∧ op.moveWidth? = none := by
  cases op <;> decide

namespace Operand

variable {op : Opcode} {k : Nat} {ts : List Token} {o : Operand}

theorem Spelled.written (spelled : Spelled op (.ofIndex k) ts o) : Written op k ts o := by
  have later : Slot.ofIndex k = .trailing → 1 ≤ k := Slot.ofIndex_eq_trailing_iff.mp
  generalize place : Slot.ofIndex k = slot at spelled later
  cases spelled with
  | reference address value =>
    have written : Written op k _ _ := .reference value (Nat.le_of_lt_succ address.toNat_lt)
    simpa using written
  | top keyword readable =>
    refine .top (Text.sameSpelling_iff.mp keyword).symm ?_
    rwa [← place, Slot.ofIndex_eq_leading_iff] at readable
  | sized n keyword admitted value fits =>
    refine .sized (later rfl) (Width.ofKeyword?_eq_some_iff.mp keyword) value
      (Width.fits_iff.mp fits) ?_
    cases width : op.moveWidth? with
    | none => exact .inl rfl
    | some required => exact .inr (congrArg some (admitted required width))
  | leading n value plain =>
    refine .bare value (.leading (Slot.ofIndex_eq_leading_iff.mp place) ?_)
    intro tag
    have shadowed : Tag.shadowsLeading n.toUInt8 = true := Tag.shadowsLeading_iff_toNat.mpr tag
    cases plain.symm.trans shadowed
  | moved n move value fits =>
    exact .bare value (.moved (later rfl) move (Width.fits_iff.mp fits))
  | inferred n move free value =>
    have fits := Width.fits_narrowest (Literal.fits_of_value value)
    refine .bare value (.inferred (later rfl) (Opcode.eq_mov_iff.mpr ⟨move, free⟩)
      (Width.fits_iff.mp fits) ?_)
    intro w' fits'
    exact Width.narrowest_le (Width.fits_iff.mpr fits')
  | escaped n other value shadowed =>
    exact .bare value (.escaped (later rfl) other (Tag.shadowsTrailing_iff_toNat.mp shadowed))
  | raw n other value plain =>
    refine .bare value (.raw (later rfl) other ?_)
    intro tag
    have shadowed : Tag.shadowsTrailing n.toUInt8 = true := Tag.shadowsTrailing_iff_toNat.mpr tag
    cases plain.symm.trans shadowed

theorem Bare.spelled {l : Literal} {n : Nat} (value : l.value = n) (bare : Bare op k n o) :
    Spelled op (.ofIndex k) [.literal l] o := by
  cases bare with
  | leading first plain =>
    rw [Slot.ofIndex_eq_leading_iff.mpr first]
    refine .leading n value (Bool.eq_false_iff.mpr ?_)
    exact fun tag => plain (Tag.shadowsLeading_iff_toNat.mp tag)
  | moved later move fits =>
    rw [Slot.ofIndex_eq_trailing_iff.mpr later]
    exact .moved n move value (Width.fits_iff.mpr fits)
  | @inferred w later move fits narrowest =>
    obtain ⟨isMove, free⟩ := Opcode.eq_mov_iff.mp move
    have least : Width.narrowest n = w := by
      apply Width.bytes_injective
      apply Nat.le_antisymm
      · exact Width.narrowest_le (Width.fits_iff.mpr fits)
      · have fits' := Width.fits_narrowest (Literal.fits_of_value value)
        exact narrowest _ (Width.fits_iff.mp fits')
    rw [Slot.ofIndex_eq_trailing_iff.mpr later, ← least]
    exact .inferred n isMove free value
  | escaped later other tag =>
    rw [Slot.ofIndex_eq_trailing_iff.mpr later]
    exact .escaped n other value (Tag.shadowsTrailing_iff_toNat.mpr tag)
  | raw later other plain =>
    rw [Slot.ofIndex_eq_trailing_iff.mpr later]
    refine .raw n other value (Bool.eq_false_iff.mpr ?_)
    exact fun tag => plain (Tag.shadowsTrailing_iff_toNat.mp tag)

theorem Written.spelled (written : Written op k ts o) : Spelled op (.ofIndex k) ts o := by
  cases written with
  | @reference l n value small =>
    refine .reference n.toUInt8 ?_
    rw [value]
    simp
    omega
  | top keyword readable =>
    refine .top (Text.sameSpelling_iff.mpr keyword.symm) ?_
    rwa [Slot.ofIndex_eq_leading_iff]
  | @sized name w l n later keyword value fits admitted =>
    rw [Slot.ofIndex_eq_trailing_iff.mpr later]
    refine .sized n (Width.ofKeyword?_eq_some_iff.mpr keyword) ?_ value (Width.fits_iff.mpr fits)
    intro required found
    rcases admitted with free | same
    · cases free.symm.trans found
    · cases same.symm.trans found
      rfl
  | bare value means => exact means.spelled value

/-- Operands side by side, each behind what separates it from the one before. -/
theorem allSpelled_iff {slots : List Slot} {os : List Operand} :
    AllSpelled op slots ts os ↔ ∃ parts : List (List Token),
      ts = (List.zipWith (fun slot part => slot.separator ++ part) slots parts).flatten ∧
        parts.length = slots.length ∧ os.length = slots.length ∧
          ∀ (k : Nat) (slot : Slot) (part : List Token) (o : Operand), slots[k]? = some slot →
            parts[k]? = some part → os[k]? = some o → Spelled op slot part o := by
  constructor
  · intro spelled
    induction spelled with
    | nil => exact ⟨[], rfl, rfl, rfl, by simp⟩
    | @cons slot slots part us o os first others ih =>
      obtain ⟨parts, rfl, count, size, each⟩ := ih
      refine ⟨part :: parts, by simp, by simp [count], by simp [size], ?_⟩
      intro k slot' part' o' atSlot atPart atOperand
      cases k with
      | zero =>
        cases atSlot
        cases atPart
        cases atOperand
        exact first
      | succ k => exact each k slot' part' o' atSlot atPart atOperand
  · rintro ⟨parts, rfl, count, size, each⟩
    induction slots generalizing parts os with
    | nil =>
      cases List.eq_nil_of_length_eq_zero size
      exact .nil
    | cons slot slots ih =>
      obtain ⟨part, parts, rfl⟩ := List.exists_cons_of_length_eq_add_one count
      obtain ⟨o, os, rfl⟩ := List.exists_cons_of_length_eq_add_one size
      have others := ih parts (Nat.succ.inj count) (Nat.succ.inj size) fun k => each (k + 1)
      exact .cons (each 0 slot part o rfl rfl rfl) others

end Operand

theorem Opcode.length_slots (op : Opcode) : op.slots.length = op.arity := by
  simp [slots]

theorem Opcode.getElem?_slots {op : Opcode} {k : Nat} (inside : k < op.arity) :
    op.slots[k]? = some (.ofIndex k) := by
  simp [slots, inside]

theorem Operand.flatten_trailing (part : List Token) (parts : List (List Token)) :
    part ++ (List.zipWith (fun slot part => slot.separator ++ part)
      (List.replicate parts.length Slot.trailing) parts).flatten =
        [.mark .comma].intercalate (part :: parts) := by
  induction parts generalizing part with
  | nil => simp
  | cons next parts ih =>
    rw [List.intercalate_cons_cons, ← ih next, List.length_cons, List.replicate_succ,
      List.zipWith_cons_cons, List.flatten_cons, Slot.separator]
    simp only [List.append_assoc]

/-- The separators of an opcode's operands stand between them. -/
theorem Opcode.flatten_slots {op : Opcode} {parts : List (List Token)}
    (count : parts.length = op.slots.length) :
    (List.zipWith (fun slot part => slot.separator ++ part) op.slots parts).flatten =
      [.mark .comma].intercalate parts := by
  rcases op.slots_eq with none | ⟨others, some⟩
  · rw [none] at count ⊢
    cases List.eq_nil_of_length_eq_zero count
    rfl
  · rw [some, List.length_cons, List.length_replicate] at count
    obtain ⟨part, parts, rfl⟩ := List.exists_cons_of_length_eq_add_one count
    have same : others = parts.length := (Nat.succ.inj count).symm
    rw [some, same, List.zipWith_cons_cons, List.flatten_cons]
    exact Operand.flatten_trailing part parts

namespace StatementKind

variable {ts : List Token} {kind : StatementKind}

theorem Spelled.written (spelled : kind.Spelled ts) : kind.Written ts := by
  cases spelled with
  | label name => exact .label name
  | @instruction name op ts os mnemonic operands =>
    obtain ⟨parts, rfl, count, size, each⟩ := Operand.allSpelled_iff.mp operands
    rw [Opcode.flatten_slots count]
    have arity : os.length = op.arity := size.trans op.length_slots
    refine .instruction (Opcode.ofMnemonic?_eq_some_iff.mp mnemonic) arity (count.trans size.symm) ?_
    intro k part o atPart atOperand
    have inside := (List.getElem?_eq_some_iff.mp atOperand).1
    apply Operand.Spelled.written
    exact each k _ part o (Opcode.getElem?_slots (inside.trans_eq arity)) atPart atOperand

theorem Written.spelled (written : kind.Written ts) : kind.Spelled ts := by
  cases written with
  | label name => exact .label name
  | @instruction name i parts named arity count operands =>
    have size : i.operands.length = i.opcode.slots.length := arity.trans i.opcode.length_slots.symm
    refine .instruction (Opcode.ofMnemonic?_eq_some_iff.mpr named) ?_
    rw [← Opcode.flatten_slots (count.trans size)]
    refine Operand.allSpelled_iff.mpr ⟨parts, rfl, count.trans size, size, ?_⟩
    intro k slot part o atSlot atPart atOperand
    have inside := (List.getElem?_eq_some_iff.mp atOperand).1
    cases atSlot.symm.trans (Opcode.getElem?_slots (inside.trans_eq arity))
    exact (operands k part o atPart atOperand).spelled

theorem written_iff_spelled : kind.Written ts ↔ kind.Spelled ts :=
  ⟨Written.spelled, Spelled.written⟩

end StatementKind

/-- A statement can be read off the front of some tokens: these tokens are it, it stands where the
first of them does, and an instruction's name is not followed by a colon. -/
structure Statement.Opens (st : Statement) (taken rest : List PlacedToken) : Prop where
  written : st.kind.Written (taken.map (·.token))
  place : taken.head?.map (·.position) = some st.position
  unlabelled : ∀ i, st.kind = .instruction i →
    (taken ++ rest)[1]?.map (·.token) ≠ some (.mark .colon)

namespace Parser

theorem statement_eq_ok_some_iff_opens {s t : TokenStream} {st : Statement} :
    statement s = .ok (some st) t ↔ ∃ taken, s.Passes taken t ∧ st.Opens taken t.ahead := by
  rw [statement_eq_ok_some_iff]
  have next : ∀ first rest, s.Passes (first :: rest) t →
      s.advance.peek? = (first :: rest ++ t.ahead)[1]? := by
    intro first rest passes
    rw [TokenStream.peek?, TokenStream.advance, passes.1]
    exact List.head?_eq_getElem?
  constructor
  · rintro ⟨first, rest, passes, place, spelled, unlabelled⟩
    rw [next first rest passes] at unlabelled
    exact ⟨first :: rest, passes, spelled.written, by simp [place], unlabelled⟩
  · rintro ⟨taken, passes, written, place, unlabelled⟩
    obtain ⟨first, rest, rfl⟩ : ∃ first rest, taken = first :: rest := by
      cases taken with
      | nil => cases place
      | cons first rest => exact ⟨first, rest, rfl⟩
    rw [← next first rest passes] at unlabelled
    exact ⟨first, rest, passes, (Option.some.inj place).symm, written.spelled, unlabelled⟩

/-- The parser accepts exactly the language of statements. It gives a statement and takes some tokens
just when these tokens are the statement; it gives none just at the end of input; and it complains
just when there are tokens and no statement can be read off their front. -/
theorem statement_accepts_language (s : TokenStream) :
    (∀ (st : Statement) (t : TokenStream), statement s = .ok (some st) t ↔
      ∃ taken, s.Passes taken t ∧ st.Opens taken t.ahead) ∧
    (∀ t : TokenStream, statement s = .ok none t ↔ s.ahead = [] ∧ t = s) ∧
    ((∃ (e : SourceError) (t : TokenStream), statement s = .error e t) ↔
      s.ahead ≠ [] ∧ ∀ (st : Statement) (taken rest : List PlacedToken),
        s.ahead = taken ++ rest → ¬ st.Opens taken rest) := by
  refine ⟨fun st t => statement_eq_ok_some_iff_opens, fun t => statement_eq_ok_none_iff, ?_⟩
  constructor
  · rintro ⟨e, t, failed⟩
    refine ⟨fun ended => ?_, fun st taken rest ahead opens => ?_⟩
    · cases failed.symm.trans (statement_eq_ok_none_iff.mpr ⟨ended, rfl⟩)
    · have parsed : statement s = .ok (some st) ⟨taken.reverse ++ s.behind, rest, s.finish⟩ :=
        statement_eq_ok_some_iff_opens.mpr ⟨taken, ⟨ahead, rfl, rfl⟩, opens⟩
      cases failed.symm.trans parsed
  · rintro ⟨tokens, closed⟩
    cases result : statement s with
    | error e t => exact ⟨e, t, rfl⟩
    | ok found t =>
      cases found with
      | none => exact absurd (statement_eq_ok_none_iff.mp result).1 tokens
      | some st =>
        obtain ⟨taken, passes, opens⟩ := statement_eq_ok_some_iff_opens.mp result
        exact absurd opens (closed st taken t.ahead passes.1)

end Parser
end OctetMachine
