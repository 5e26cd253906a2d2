import Mathlib
import OctetMachine.Machine.Basic
import OctetMachine.Parts
import OctetMachine.Proofs.Statement.Complaints
import OctetMachine.Proofs.Statement.Expressible
import OctetMachine.Proofs.Statement.Language

/-! Numbers on their way from source text to the machine. A number that stands alone as an operand is
refused for its size or for its low byte only; otherwise the bytes of the instruction give it back,
cut to a byte or in full as the opcode and the index demand, whatever the machine's state. -/
namespace OctetMachine

/-- The numbers that cannot stand alone at index `k`: in front, those whose low byte is a tag there;
as the value of a sized move, those that its width does not hold. -/
def Opcode.Refuses (op : Opcode) (k n : Nat) : Prop :=
  (k = 0 ∧ (n % 256 = 0xB0 ∨ n % 256 = 0xC0)) ∨
    (k = 1 ∧ ∃ w, op.moveWidth? = some w ∧ 256 ^ w.bytes ≤ n)

/-- The value that a number standing alone at index `k` comes to in the machine. -/
structure Opcode.Conveys (op : Opcode) (k n : Nat) (v : Value) : Prop where
  byte : k = 0 ∨ op.isMove = false → v.width = .byte ∧ v.toNat = n % 256
  exact : k = 1 → op.isMove = true → v.toNat = n
  sized : k = 1 → ∀ w, op.moveWidth? = some w → v.width = w
  narrowest : k = 1 → op = .mov → ∀ w : Width, n < 256 ^ w.bytes → v.width.bytes ≤ w.bytes

/-- The words of an instruction that has a number alone at index `k`, and every other operand as it
should be written. -/
structure Opcode.Surrounds (op : Opcode) (k : Nat) (l : Literal) (name : String)
    (parts : List (List Token)) : Prop where
  named : op.Named name
  count : parts.length = op.arity
  here : parts[k]? = some [.literal l]
  others : ∀ (j : Nat) (part : List Token), j ≠ k → parts[j]? = some part →
    ∃ o : Operand, o.Written op j part

section Meaning

variable {op : Opcode} {k n : Nat} {l : Literal} {o : Operand}

/-- A move has two operands. -/
theorem Opcode.eq_one_of_isMove (inside : k < op.arity) (move : op.isMove = true) (later : 1 ≤ k) :
    k = 1 := by
  have two : op.arity = 2 := by cases op <;> first | rfl | cases move
  omega

theorem Opcode.conveys_ofByte (cut : k = 0 ∨ op.isMove = false) :
    op.Conveys k n (.ofByte n.toUInt8) := by
  have never : k = 1 → op.isMove ≠ true := by
    rintro rfl move
    simp [move] at cut
  refine ⟨fun _ => ⟨rfl, Value.toNat_ofByte _⟩, ?_, ?_, ?_⟩
  · intro one move
    exact absurd move (never one)
  · intro one w move
    exact absurd (isMove_of_moveWidth? move) (never one)
  · rintro one rfl
    exact absurd rfl (never one)

theorem Opcode.conveys_ofNat {w : Width} (move : op.isMove = true) (fits : n < 256 ^ w.bytes)
    (sized : ∀ w', op.moveWidth? = some w' → w = w')
    (narrowest : op = .mov → ∀ w' : Width, n < 256 ^ w'.bytes → w.bytes ≤ w'.bytes) :
    op.Conveys 1 n (.ofNat w n) := by
  refine ⟨?_, fun _ _ => ?_, fun _ => sized, fun _ => narrowest⟩
  · simp [move]
  · exact Value.toNat_ofNat_eq_iff.mpr (Width.fits_iff.mpr fits)

/-- What a number alone means is the same value in every state. -/
theorem Operand.Bare.exists_conveyed (inside : k < op.arity) (bare : Bare op k n o) :
    ∃ v, op.Conveys k n v ∧ ∀ m : Machine, m.resolve o = .ok v := by
  cases bare with
  | leading first plain => exact ⟨_, Opcode.conveys_ofByte (.inl first), fun _ => rfl⟩
  | @moved w later move fits =>
    have isMove := Opcode.isMove_of_moveWidth? move
    obtain rfl := Opcode.eq_one_of_isMove inside isMove later
    refine ⟨_, Opcode.conveys_ofNat isMove fits ?_ ?_, fun _ => rfl⟩
    · intro w' move'
      exact Option.some.inj (move.symm.trans move')
    · rintro rfl
      cases move
  | @inferred w later move fits narrowest =>
    subst move
    obtain rfl := Opcode.eq_one_of_isMove inside rfl later
    refine ⟨_, Opcode.conveys_ofNat rfl fits ?_ fun _ => narrowest, fun _ => rfl⟩
    intro w' move
    cases move
  | escaped later other tag => exact ⟨_, Opcode.conveys_ofByte (.inr other), fun _ => rfl⟩
  | raw later other plain => exact ⟨_, Opcode.conveys_ofByte (.inr other), fun _ => rfl⟩

/-- A number alone means something unless it is refused. -/
theorem Operand.exists_bare_iff (inside : k < op.arity) (value : l.value = n) :
    (∃ o, Bare op k n o) ↔ ¬ op.Refuses k n := by
  constructor
  · rintro ⟨o, bare⟩ (⟨rfl, tag⟩ | ⟨rfl, w, move, wide⟩)
    · cases bare with
      | leading _ plain => exact plain (by simpa using tag)
      | moved later | inferred later | escaped later | raw later => omega
    · cases bare with
      | leading first => cases first
      | moved _ move' fits =>
        cases move.symm.trans move'
        omega
      | inferred _ isMov =>
        subst isMov
        cases move
      | escaped _ other | raw _ other => simp [Opcode.isMove_of_moveWidth? move] at other
  · intro accepted
    rcases Nat.eq_zero_or_pos k with first | later
    · refine ⟨_, .leading first fun tag => accepted (.inl ⟨first, by simpa using tag⟩)⟩
    · cases move : op.isMove with
      | false =>
        by_cases tag : n % 256 ∈ [0xB0, 0xC0, 0xD0, 0xD1, 0xD2, 0xD3]
        · exact ⟨_, .escaped later move tag⟩
        · exact ⟨_, .raw later move tag⟩
      | true =>
        cases width : op.moveWidth? with
        | none =>
          have fits := Width.fits_narrowest (Literal.fits_of_value value)
          have free := Opcode.eq_mov_iff.mpr ⟨move, width⟩
          refine ⟨_, .inferred later free (Width.fits_iff.mp fits) ?_⟩
          intro w' fits'
          exact Width.narrowest_le (Width.fits_iff.mpr fits')
        | some w =>
          refine ⟨_, .moved later width (Nat.lt_of_not_le fun wide => accepted (.inr ?_))⟩
          exact ⟨Opcode.eq_one_of_isMove inside move later, w, width, wide⟩

theorem Operand.ofLiteral_eq_ok_iff (value : l.value = n) :
    ofLiteral (.ofSlot op (.ofIndex k)) n = .ok o ↔ Bare op k n o := by
  constructor
  · intro accepted
    have spelled : Spelled op (.ofIndex k) [.literal l] o :=
      spelled_literal_iff.mpr ⟨rfl, n, value, accepted⟩
    cases spelled.written with
    | bare value' means =>
      cases Int.ofNat_inj.mp (value.symm.trans value')
      exact means
  · intro bare
    obtain ⟨-, n', value', accepted⟩ := spelled_literal_iff.mp (bare.spelled value)
    cases Int.ofNat_inj.mp (value.symm.trans value')
    exact accepted

end Meaning

namespace Parser

variable {op : Opcode} {k n : Nat} {l : Literal} {position : Position} {s t u : TokenStream}

theorem operand_of_literal (slot : Slot) (next : s.peek? = some ⟨.literal l, position⟩)
    (value : l.value = n) :
    operand op slot s = accept position (Operand.ofLiteral (.ofSlot op slot) n) s.advance := by
  have taken : take .operand s = .ok ⟨.literal l, position⟩ s.advance := by simp [take, next]
  simp only [operand, Bind.bind, EStateM.bind, taken, value]
  rfl

theorem exists_accept_eq_ok_iff {α : Type} {answer : Except Refusal α} :
    (∃ a, accept position answer s = .ok a s) ↔ ∃ a, answer = .ok a := by
  cases answer with
  | error refusal => simp [accept, fail, throw, throwThe, MonadExceptOf.throw, EStateM.throw]
  | ok a => simp [accept, pure, EStateM.pure]

theorem exists_accept_eq_error_iff {α : Type} {answer : Except Refusal α} :
    (∃ refusal, accept position answer s = .error ⟨position, .unsupported refusal⟩ s) ↔
      ¬ ∃ a, answer = .ok a := by
  cases answer with
  | error refusal => simp [accept, fail, throw, throwThe, MonadExceptOf.throw, EStateM.throw]
  | ok a => simp [accept, pure, EStateM.pure]

theorem exists_operand_eq_ok_iff (inside : k < op.arity)
    (next : s.peek? = some ⟨.literal l, position⟩) (value : l.value = n) :
    (∃ o, operand op (.ofIndex k) s = .ok o s.advance) ↔ ¬ op.Refuses k n := by
  rw [operand_of_literal _ next value, exists_accept_eq_ok_iff]
  simp only [Operand.ofLiteral_eq_ok_iff value, Operand.exists_bare_iff inside value]

theorem exists_operand_eq_error_iff (inside : k < op.arity)
    (next : s.peek? = some ⟨.literal l, position⟩) (value : l.value = n) :
    (∃ refusal, operand op (.ofIndex k) s = .error ⟨position, .unsupported refusal⟩ s.advance) ↔
      op.Refuses k n := by
  rw [operand_of_literal _ next value, exists_accept_eq_error_iff]
  simp only [Operand.ofLiteral_eq_ok_iff value, Operand.exists_bare_iff inside value, not_not]

/-- Operands are parsed one slot after the other. -/
theorem operands_append (op : Opcode) (front back : List Slot) :
    operands op (front ++ back) = (do
      let os ← operands op front
      let others ← operands op back
      return os ++ others) := by
  induction front with
  | nil => simp [operands]
  | cons slot front ih => simp [operands, ih]

/-- Behind operands that are as they should be, the next one's complaint is the complaint of all. -/
theorem operands_eq_error_of_operand {front : List Slot} {slot : Slot}
    {before comma : List PlacedToken} {os : List Operand} {e : SourceError} {v w : TokenStream}
    (spelled : Operand.AllSpelled op front (before.map (·.token)) os) (passes : s.Passes before u)
    (separated : comma.map (·.token) = slot.separator) (behind : u.Passes comma v)
    (failed : operand op slot v = .error e w) (back : List Slot) :
    operands op (front ++ slot :: back) s = .error e w := by
  have parsed := (recognizes_operands op front s os u).mpr ⟨before, passes, spelled⟩
  have parted := (recognizes_separator slot u () v).mpr ⟨comma, behind, separated⟩
  rw [operands_append, bind_eq_error_iff]
  refine .inr ⟨os, u, parsed, bind_eq_error_iff.mpr (.inl ?_)⟩
  refine bind_eq_error_iff.mpr (.inr ⟨(), v, parted, ?_⟩)
  exact bind_eq_error_iff.mpr (.inl failed)

end Parser

theorem TokenStream.peek?_advance (s : TokenStream) : s.advance.peek? = s.ahead[1]? := by
  obtain ⟨behind, ahead, finish⟩ := s
  cases ahead with
  | nil => rfl
  | cons first rest => exact List.head?_eq_getElem?

/-- Where every part means some operand, the parts mean a list of them. -/
theorem Operand.exists_operands {R : Nat → List Token → Operand → Prop} {parts : List (List Token)}
    (each : ∀ (j : Nat) (part : List Token), parts[j]? = some part → ∃ o, R j part o) :
    ∃ os : List Operand, os.length = parts.length ∧
      ∀ (j : Nat) (part : List Token) (o : Operand), parts[j]? = some part → os[j]? = some o →
        R j part o := by
  have meaning : ∀ j : Fin parts.length, ∃ o, R j parts[j] o := by
    intro j
    exact each j _ (List.getElem?_eq_getElem j.isLt)
  choose f means using meaning
  refine ⟨List.ofFn f, List.length_ofFn, fun j part o atPart atOperand => ?_⟩
  obtain ⟨inside, rfl⟩ := List.getElem?_eq_some_iff.mp atPart
  obtain ⟨_, rfl⟩ := List.getElem?_eq_some_iff.mp atOperand
  simpa using means ⟨j, inside⟩

/-- An operand begins with a token that is no colon. -/
theorem Operand.Written.ne_colon {op : Opcode} {k : Nat} {part : List Token} {o : Operand}
    (written : Written op k part o) : ∃ token rest, part = token :: rest ∧ token ≠ .mark .colon := by
  cases written with
  | reference | top | sized | bare => exact ⟨_, _, rfl, by simp⟩

theorem Operand.Written.comma_not_mem {op : Opcode} {k : Nat} {part : List Token} {o : Operand}
    (written : Written op k part o) : .mark .comma ∉ part := by
  cases written with
  | reference | top | sized | bare => simp

namespace Opcode.Surrounds

variable {op : Opcode} {k n : Nat} {l : Literal} {name : String} {parts : List (List Token)}

theorem inside (surrounds : op.Surrounds k l name parts) : k < op.arity := by
  rw [← surrounds.count]
  exact (List.getElem?_eq_some_iff.mp surrounds.here).1

/-- Behind the name comes a token that is no colon, so the name is not read as a label. -/
theorem second_ne_colon (surrounds : op.Surrounds k l name parts) {taken : List PlacedToken}
    (tokens : taken.map (·.token) = .identifier name :: [.mark .comma].intercalate parts)
    (rest : List PlacedToken) : (taken ++ rest)[1]?.map (·.token) ≠ some (.mark .colon) := by
  obtain ⟨part, others, rfl⟩ : ∃ part others, parts = part :: others := by
    cases parts with
    | nil => cases surrounds.here
    | cons part others => exact ⟨part, others, rfl⟩
  obtain ⟨token, ts, rfl, other⟩ : ∃ token ts, part = token :: ts ∧ token ≠ .mark .colon := by
    by_cases first : 0 = k
    · subst first
      cases surrounds.here
      exact ⟨_, _, rfl, by simp⟩
    · obtain ⟨o, written⟩ := surrounds.others 0 part first rfl
      exact written.ne_colon
  rw [← Operand.flatten_trailing, List.cons_append] at tokens
  obtain ⟨_, _, rfl, _, tokens⟩ := List.map_eq_cons_iff.mp tokens
  obtain ⟨_, _, rfl, rfl, _⟩ := List.map_eq_cons_iff.mp tokens
  simpa using other

/-- A number that is not refused leaves nothing amiss. -/
theorem exists_written (surrounds : op.Surrounds k l name parts) (value : l.value = n)
    (accepted : ¬ op.Refuses k n) : ∃ os, StatementKind.Written
      (.identifier name :: [.mark .comma].intercalate parts) (.instruction ⟨op, os⟩) := by
  obtain ⟨o, bare⟩ := (Operand.exists_bare_iff surrounds.inside value).mpr accepted
  have each : ∀ (j : Nat) (part : List Token), parts[j]? = some part →
      ∃ o : Operand, o.Written op j part := by
    intro j part found
    by_cases same : j = k
    · subst same
      cases surrounds.here.symm.trans found
      exact ⟨o, .bare value bare⟩
    · exact surrounds.others j part same found
  obtain ⟨os, size, means⟩ := Operand.exists_operands each
  exact ⟨os, .instruction surrounds.named (size.trans surrounds.count) size.symm means⟩

/-- The slots and the words up to the number, and the operands that these words mean. -/
theorem exists_front (surrounds : op.Surrounds k l name parts) :
    ∃ (front back : List Slot) (ts us : List Token) (os : List Operand),
      op.slots = front ++ .ofIndex k :: back ∧
      [.mark .comma].intercalate parts = ts ++ ((Slot.ofIndex k).separator ++ .literal l :: us) ∧
      Operand.AllSpelled op front ts os := by
  have slots := eq_take_append_cons_drop (getElem?_slots surrounds.inside)
  have words := eq_take_append_cons_drop surrounds.here
  have count : parts.length = op.slots.length := surrounds.count.trans op.length_slots.symm
  have level : (op.slots.take k).length = (parts.take k).length := by
    rw [List.length_take, List.length_take, count]
  have each : ∀ (j : Nat) (part : List Token), (parts.take k)[j]? = some part →
      ∃ o : Operand, o.Written op j part := by
    intro j part found
    rw [List.getElem?_take, ite_eq_iff] at found
    obtain ⟨early, found⟩ | ⟨_, missing⟩ := found
    · exact surrounds.others j part early.ne found
    · cases missing
  obtain ⟨os, size, means⟩ := Operand.exists_operands each
  -- slots and words are cut at one index, so their pairs are cut there too
  have joined := flatten_slots count
  nth_rewrite 1 [slots] at joined
  nth_rewrite 1 [words] at joined
  rw [List.zipWith_append level, List.zipWith_cons_cons, List.flatten_append, List.flatten_cons,
    List.append_assoc (Slot.separator _), List.singleton_append] at joined
  refine ⟨_, _, _, _, os, slots, joined.symm, ?_⟩
  refine Operand.allSpelled_iff.mpr ⟨parts.take k, rfl, level.symm, size.trans level.symm, ?_⟩
  intro j slot part o atSlot atPart atOperand
  obtain ⟨inside, _⟩ := List.getElem?_eq_some_iff.mp atSlot
  rw [List.length_take, op.length_slots] at inside
  rw [List.getElem?_take_of_lt (by omega), getElem?_slots (by omega)] at atSlot
  cases atSlot
  exact (means j part o atPart atOperand).spelled

/-- A number that is refused is what the statement fails for. -/
theorem statement_eq_error (surrounds : op.Surrounds k l name parts) (value : l.value = n)
    (refuses : op.Refuses k n) {s : TokenStream} {taken rest : List PlacedToken}
    (ahead : s.ahead = taken ++ rest)
    (tokens : taken.map (·.token) = .identifier name :: [.mark .comma].intercalate parts) :
    ∃ u ∈ taken, u.token = .literal l ∧ ∃ refusal t,
      Parser.statement s = .error ⟨u.position, .unsupported refusal⟩ t := by
  obtain ⟨front, back, ts, us, os, slots, words, spelled⟩ := surrounds.exists_front
  have noColon := surrounds.second_ne_colon tokens rest
  rw [← ahead, ← TokenStream.peek?_advance] at noColon
  rw [words] at tokens
  obtain ⟨first, others, rfl, word, tokens⟩ := List.map_eq_cons_iff.mp tokens
  obtain ⟨before, middle, rfl, rfl, tokens'⟩ := List.map_eq_append_iff.mp tokens
  obtain ⟨comma, after, rfl, separated, tokens''⟩ := List.map_eq_append_iff.mp tokens'
  obtain ⟨⟨_, position⟩, last, rfl, rfl, -⟩ := List.map_eq_cons_iff.mp tokens''
  -- the name, the operands before, the separator, and then the number
  have passes : s.Passes _ ⟨_, rest, s.finish⟩ := ⟨ahead, rfl, rfl⟩
  obtain ⟨next, passes⟩ := TokenStream.passes_cons_iff.mp passes
  obtain ⟨u, passed, passes⟩ := TokenStream.passes_append_iff.mp passes
  obtain ⟨v, behind, passes⟩ := TokenStream.passes_append_iff.mp passes
  obtain ⟨number, -⟩ := TokenStream.passes_cons_iff.mp passes
  obtain ⟨refusal, failed⟩ :=
    (Parser.exists_operand_eq_error_iff surrounds.inside number value).mpr refuses
  have failed := Parser.operands_eq_error_of_operand spelled passed separated behind failed back
  rw [← slots] at failed
  have known := ofMnemonic?_eq_some_iff.mpr surrounds.named
  refine ⟨⟨.literal l, position⟩, by simp, rfl, refusal, v.advance, ?_⟩
  exact Parser.statement_eq_error_iff.mpr ⟨first, next, .operands word noColon known failed⟩

/-- A number that is not refused lets the statement through. -/
theorem statement_eq_ok (surrounds : op.Surrounds k l name parts) (value : l.value = n)
    (accepted : ¬ op.Refuses k n) {s : TokenStream} {taken rest : List PlacedToken}
    (ahead : s.ahead = taken ++ rest)
    (tokens : taken.map (·.token) = .identifier name :: [.mark .comma].intercalate parts) :
    ∃ place os t, s.Passes taken t ∧
      Parser.statement s = .ok (some ⟨place, .instruction ⟨op, os⟩⟩) t := by
  obtain ⟨os, written⟩ := surrounds.exists_written value accepted
  obtain ⟨first, _, rfl, _, _⟩ := List.map_eq_cons_iff.mp tokens
  rw [← tokens] at written
  have passes : s.Passes _ ⟨_, rest, s.finish⟩ := ⟨ahead, rfl, rfl⟩
  refine ⟨first.position, os, _, passes, Parser.statement_eq_ok_some_iff_opens.mpr ⟨_, passes, ?_⟩⟩
  exact ⟨written, rfl, fun _ _ => surrounds.second_ne_colon tokens rest⟩

end Opcode.Surrounds

namespace Parser

variable {op : Opcode} {k n : Nat} {l : Literal}

/-- What stands alone between the commas of an instruction means the operand there. -/
theorem bare_of_written {ts : List Token} {i : Instruction}
    (written : StatementKind.Written ts (.instruction i)) (value : l.value = n)
    (alone : (ts.tail.splitOn (.mark .comma))[k]? = some [.literal l]) :
    ∃ o, i.operands[k]? = some o ∧ o.Bare i.opcode k n := by
  cases written with
  | @instruction name _ parts named arity count operands =>
    -- no operand holds a comma, so the commas are the separators
    have whole : ∀ part ∈ parts, .mark .comma ∉ part := by
      intro part member
      obtain ⟨j, inside, found⟩ := List.getElem_of_mem member
      have operand := List.getElem?_eq_getElem (inside.trans_eq count)
      exact (operands j part _ (List.getElem?_eq_some_iff.mpr ⟨inside, found⟩) operand).comma_not_mem
    have some_part : parts ≠ [] := by
      rintro rfl
      cases k <;> simp at alone
    rw [List.tail_cons, List.splitOn_intercalate _ whole some_part] at alone
    have inside : k < i.operands.length := by
      rw [← count]
      exact (List.getElem?_eq_some_iff.mp alone).1
    have operand := List.getElem?_eq_getElem inside
    refine ⟨_, operand, ?_⟩
    cases operands k _ _ alone operand with
    | bare value' means =>
      cases Int.ofNat_inj.mp (value.symm.trans value')
      exact means

/-- Numbers reach the machine with their value. A number alone as an operand is refused just when its
low byte or its size forbids it there, also when all else in its statement is as it should be. If the
statement is accepted, its bytes are read back, and the operand of that index is in every state the
value that the number conveys. -/
theorem literals_reach_machine (inside : k < op.arity) (value : l.value = n) :
    (∀ (s : TokenStream) (position : Position), s.peek? = some ⟨.literal l, position⟩ →
      ((∃ refusal, operand op (.ofIndex k) s = .error ⟨position, .unsupported refusal⟩ s.advance) ↔
        op.Refuses k n) ∧
      ((∃ o, operand op (.ofIndex k) s = .ok o s.advance) ↔ ¬ op.Refuses k n)) ∧
    (∀ (name : String) (parts : List (List Token)) (s : TokenStream)
      (taken rest : List PlacedToken), op.Surrounds k l name parts → s.ahead = taken ++ rest →
      taken.map (·.token) = .identifier name :: [.mark .comma].intercalate parts →
      (op.Refuses k n → ∃ u ∈ taken, u.token = .literal l ∧ ∃ refusal t,
        statement s = .error ⟨u.position, .unsupported refusal⟩ t) ∧
      (¬ op.Refuses k n → ∃ place os t, s.Passes taken t ∧
        statement s = .ok (some ⟨place, .instruction ⟨op, os⟩⟩) t)) ∧
    (∀ (s t : TokenStream) (place : Position) (i : Instruction) (taken : List PlacedToken),
      statement s = .ok (some ⟨place, .instruction i⟩) t → i.opcode = op → s.Passes taken t →
      ((taken.map (·.token)).tail.splitOn (.mark .comma))[k]? = some [.literal l] →
      ∃ v, op.Conveys k n v ∧ ∀ (offset : Nat) (rest : List UInt8), ∃ j o,
        Instruction.decode ⟨offset, i.encode ++ rest⟩ =
          .ok (j, ⟨offset + i.encode.length, rest⟩) ∧
        j.operands[k]? = some o ∧ ∀ m : Machine, m.resolve o = .ok v) := by
  refine ⟨fun s position next => ?_, fun name parts s taken rest surrounds ahead tokens => ?_, ?_⟩
  · exact ⟨exists_operand_eq_error_iff inside next value, exists_operand_eq_ok_iff inside next value⟩
  · exact ⟨fun refuses => surrounds.statement_eq_error value refuses ahead tokens,
      fun accepted => surrounds.statement_eq_ok value accepted ahead tokens⟩
  · rintro s t place i taken parsed rfl passes alone
    obtain ⟨taken', passes', opens⟩ := statement_eq_ok_some_iff_opens.mp parsed
    obtain rfl : taken' = taken := List.append_cancel_right (passes'.1.symm.trans passes.1)
    obtain ⟨o, found, bare⟩ := bare_of_written opens.written value alone
    obtain ⟨v, conveys, resolved⟩ := bare.exists_conveyed inside
    have encodable := (Instruction.expressible_of_spelled opens.written.spelled).encodable
    refine ⟨v, conveys, fun offset rest => ⟨i, o, ?_, found, resolved⟩⟩
    have decoded := Instruction.decode_encode (Instruction.isEncodable_iff.mpr encodable) offset rest
    rwa [← i.length_encode] at decoded

/-- The low byte of 432 is a tag, which is no obstacle behind the first operand. -/
theorem literals_reach_machine_tag_byte :
    ∃ v, Opcode.Conveys .add 1 432 v ∧ ∀ (offset : Nat) (rest : List UInt8), ∃ j o,
      Instruction.decode ⟨offset, [0xA0, 5, 0xD0, 0xB0] ++ rest⟩ = .ok (j, ⟨offset + 4, rest⟩) ∧
      j.operands[1]? = some o ∧ ∀ m : Machine, m.resolve o = .ok v := by
  let taken : List PlacedToken := [⟨.identifier "add", .start⟩, ⟨.literal (.byte 5), .start⟩,
    ⟨.mark .comma, .start⟩, ⟨.literal (.long 432), .start⟩]
  have numbers := @literals_reach_machine .add 1 432 (.long 432) (by decide) rfl
  exact numbers.2.2 (.ofTokenList taken) ⟨taken.reverse, [], _⟩ .start
    ⟨.add, [.literal 5, .immediate (.ofByte 0xB0)]⟩ taken rfl rfl ⟨rfl, rfl, rfl⟩ rfl

end Parser
end OctetMachine
