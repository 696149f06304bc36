import Mathlib.Data.List.Sort
import Mathlib.Order.Basic
import TwinLog.Proofs.WireRoundTrip

set_option autoImplicit false

namespace TwinLog

namespace Domain

variable {domain first second key item : Domain}

/-- No place is the beginning of another value's place, so places can stand in a row. -/
def PrefixFree (domain : Domain) : Prop :=
  ∀ (one other : domain.Value) (rest more : List Nat),
    domain.place one ++ rest = domain.place other ++ more → one = other ∧ rest = more

def Before (domain : Domain) (one other : domain.Value) : Prop :=
  domain.place one < domain.place other

theorem prefixFree_number {α : Type} {number : α → Nat}
    (injective : ∀ one other, number one = number other → one = other) :
    PrefixFree ⟨α, fun value => [number value]⟩ := by
  intro one other rest more same
  simp only [List.cons_append, List.nil_append, List.cons.injEq] at same
  exact ⟨injective one other same.1, same.2⟩

theorem PrefixFree.option (free : item.PrefixFree) : item.option.PrefixFree := by
  intro one other rest more same
  match one, other with
  | none, none => simpa [Domain.option] using same
  | none, some _ => simp [Domain.option] at same
  | some _, none => simp [Domain.option] at same
  | some one, some other =>
      simp only [Domain.option, List.cons_append, List.cons.injEq, true_and] at same
      obtain ⟨values, rests⟩ := free one other rest more same
      exact ⟨congrArg some values, rests⟩

theorem PrefixFree.sequence (free : item.PrefixFree) : item.sequence.PrefixFree := by
  intro ones others rest more same
  induction ones generalizing others with
  | nil =>
      cases others with
      | nil => simpa [Domain.sequence] using same
      | cons other others => simp [Domain.sequence] at same
  | cons one ones ih =>
      cases others with
      | nil => simp [Domain.sequence] at same
      | cons other others =>
          simp only [Domain.sequence, List.flatMap_cons, List.cons_append, List.append_assoc, List.cons.injEq,
            true_and] at same
          obtain ⟨heads, tails⟩ := free one other _ _ same
          have further := ih others (by simpa [Domain.sequence] using tails)
          exact ⟨by rw [heads, further.1], further.2⟩

theorem PrefixFree.pair (free : first.PrefixFree) (more : second.PrefixFree) : (first.pair second).PrefixFree := by
  rintro ⟨one, one'⟩ ⟨other, other'⟩ rest rest' same
  simp only [Domain.pair, List.append_assoc] at same
  obtain ⟨firsts, behind⟩ := free one other _ _ same
  obtain ⟨seconds, rests⟩ := more one' other' _ _ behind
  exact ⟨by rw [firsts, seconds], rests⟩

theorem PrefixFree.dictionary (keys : key.PrefixFree) (items : item.PrefixFree) :
    (key.dictionary item).PrefixFree := by
  intro one other rest more same
  obtain ⟨entries, rests⟩ := (keys.pair items).sequence one.entries other.entries rest more same
  exact ⟨Dictionary.eq_of_entries entries, rests⟩

theorem PrefixFree.sum (free : first.PrefixFree) (more : second.PrefixFree) : (first.sum second).PrefixFree := by
  intro one other rest rest' same
  match one, other with
  | .inl one, .inl other =>
      simp only [Domain.sum, List.cons_append, List.cons.injEq, true_and] at same
      obtain ⟨values, rests⟩ := free one other _ _ same
      exact ⟨congrArg Sum.inl values, rests⟩
  | .inl _, .inr _ => simp [Domain.sum] at same
  | .inr _, .inl _ => simp [Domain.sum] at same
  | .inr one, .inr other =>
      simp only [Domain.sum, List.cons_append, List.cons.injEq, true_and] at same
      obtain ⟨values, rests⟩ := more one other _ _ same
      exact ⟨congrArg Sum.inr values, rests⟩

theorem prefixFree_signed (bits : Nat) : (signed bits).PrefixFree := by
  intro one other rest more same
  simp only [signed, List.cons_append, List.nil_append, List.cons.injEq] at same
  exact ⟨BitVec.eq_of_toNat_eq same.2.1, same.2.2⟩

theorem utf8_injective {one other : String} (same : utf8 one = utf8 other) : one = other := by
  have read := Wire.fromUTF8?_utf8 one
  rw [same, Wire.fromUTF8?_utf8, Option.some.injEq] at read
  exact read.symm

theorem prefixFree_byte : byte.PrefixFree :=
  prefixFree_number fun _ _ same => UInt8.toNat_inj.mp same

/-- Lists of which neither begins the other are compared before either ends. -/
theorem append_lt_append {one other : List Nat} (rest more : List Nat) (apart : ¬ one <+: other)
    (apart' : ¬ other <+: one) : one ++ rest < other ++ more ↔ one < other := by
  induction one generalizing other with
  | nil => exact absurd (List.nil_prefix) apart
  | cons first one ih =>
      cases other with
      | nil => exact absurd (List.nil_prefix) apart'
      | cons first' other =>
          simp only [List.cons_append, List.cons_lt_cons_iff]
          by_cases same : first = first'
          · subst same
            simp only [List.cons_prefix_cons, true_and] at apart apart'
            rw [ih apart apart']
          · simp only [same, false_and, or_false]

theorem append_lt_append_left (front rest more : List Nat) : front ++ rest < front ++ more ↔ rest < more := by
  induction front with
  | nil => rfl
  | cons first front ih => simp only [List.cons_append, List.cons_lt_cons_iff, Nat.lt_irrefl, true_and, false_or, ih]

/-- Two places with something behind them: the places decide, unless the values are equal. -/
theorem PrefixFree.append_lt (free : domain.PrefixFree) (one other : domain.Value) (rest more : List Nat) :
    domain.place one ++ rest < domain.place other ++ more ↔ domain.Before one other ∨ one = other ∧ rest < more := by
  by_cases same : one = other
  · subst same
    simp only [append_lt_append_left, Before, List.lt_irrefl, true_and, false_or]
  · have apart {one other : domain.Value} (different : one ≠ other) : ¬ domain.place one <+: domain.place other := by
      rintro ⟨rest, longer⟩
      exact different (free one other rest [] (by rw [longer, List.append_nil])).1
    rw [append_lt_append rest more (apart same) (apart (Ne.symm same))]
    simp only [Before, same, false_and, or_false]

theorem PrefixFree.before_trichotomy (free : domain.PrefixFree) (one other : domain.Value) :
    domain.Before one other ∨ one = other ∨ domain.Before other one := by
  by_cases less : domain.Before one other
  · exact Or.inl less
  · by_cases same : domain.place one = domain.place other
    · exact Or.inr (Or.inl (free one other [] [] (by rw [same])).1)
    · exact Or.inr (Or.inr (Dictionary.lt_of_not_lt_of_ne less same))

theorem before_number {α : Type} {number : α → Nat} :
    Before ⟨α, fun value => [number value]⟩ = fun one other => number one < number other := by
  funext one other
  simp only [Before, List.cons_lt_cons_iff, List.lt_irrefl, and_false, or_false]

theorem before_signed {bits : Nat} : (signed bits).Before = fun one other : BitVec bits => one.toInt < other.toInt := by
  funext one other
  have value := @BitVec.toInt_eq_msb_cond bits one
  have value' := @BitVec.toInt_eq_msb_cond bits other
  have bound := one.isLt
  have bound' := other.isLt
  simp only [Before, signed, List.cons_lt_cons_iff, List.lt_irrefl, and_false, or_false]
  cases negative : one.msb <;> cases negative' : other.msb <;>
    simp only [negative, negative', Bool.false_eq_true, ↓reduceIte] at value value' <;>
    simp only [Bool.not_true, Bool.not_false, Bool.toNat_true, Bool.toNat_false, Nat.lt_irrefl, Nat.zero_lt_one,
      Nat.not_lt_zero, Nat.zero_ne_one, Nat.one_ne_zero, true_and, false_and, false_or, or_false, eq_iff_iff,
      true_iff, false_iff] <;>
    omega

theorem before_option : item.option.Before = Option.lt item.Before := by
  funext one other
  match one, other with
  | none, none => simp [Before, Domain.option, Option.lt]
  | none, some _ => simp [Before, Domain.option, Option.lt, List.cons_lt_cons_iff]
  | some _, none => simp [Before, Domain.option, Option.lt, -List.not_lt, List.cons_lt_cons_iff]
  | some _, some _ => simp [Before, Domain.option, Option.lt]

theorem PrefixFree.before_pair (free : first.PrefixFree) :
    (first.pair second).Before = fun one other =>
      first.Before one.1 other.1 ∨ one.1 = other.1 ∧ second.Before one.2 other.2 := by
  funext one other
  exact propext (free.append_lt one.1 other.1 _ _)

theorem PrefixFree.before_sequence (free : item.PrefixFree) : item.sequence.Before = List.Lex item.Before := by
  funext ones others
  induction ones generalizing others with
  | nil =>
      cases others with
      | nil => simp [Before, Domain.sequence]
      | cons other others => simp [Before, Domain.sequence, List.cons_lt_cons_iff]
  | cons one ones ih =>
      cases others with
      | nil => simp [Before, Domain.sequence, -List.not_lt, List.cons_lt_cons_iff]
      | cons other others =>
          have further := ih others
          simp only [Before, Domain.sequence] at further
          simp only [Before, Domain.sequence, List.flatMap_cons, List.cons_append, List.append_assoc,
            List.cons_lt_cons_iff, Nat.lt_irrefl, true_and, false_or, free.append_lt, further, List.cons_lex_cons_iff]

theorem PrefixFree.before_dictionary (keys : key.PrefixFree) (items : item.PrefixFree) :
    (key.dictionary item).Before = fun one other => List.Lex (key.pair item).Before one.entries other.entries := by
  funext one other
  exact congrFun (congrFun (keys.pair items).before_sequence one.entries) other.entries

theorem before_sum : (first.sum second).Before = Sum.Lex first.Before second.Before := by
  funext one other
  match one, other with
  | .inl _, .inl _ => simp [Before, Domain.sum]
  | .inl _, .inr _ => simp [Before, Domain.sum, List.cons_lt_cons_iff]
  | .inr _, .inl _ => simp [Before, Domain.sum, -List.not_lt, List.cons_lt_cons_iff]
  | .inr _, .inr _ => simp [Before, Domain.sum]

end Domain

open Domain

mutual
/-- No two values of a shape share a place, and with it the order of the places is one of the values. -/
theorem Shape.prefixFree : ∀ shape : Shape, shape.domain.PrefixFree
  | .unit => fun _ _ _ _ same => ⟨rfl, same⟩
  | .bool => prefixFree_number (by decide)
  | .raw _ => prefixFree_number fun _ _ same => BitVec.eq_of_toNat_eq same
  | .signed count => prefixFree_signed (8 * count)
  | .natural _ => prefixFree_number fun _ _ same => BitVec.eq_of_toNat_eq same
  | .integer bits => prefixFree_signed bits
  | .char => prefixFree_number fun _ _ same => Char.toNat_inj.mp same
  | .text => by
      intro one other rest more same
      obtain ⟨bytes, rests⟩ := prefixFree_byte.sequence (utf8 one) (utf8 other) rest more same
      exact ⟨utf8_injective bytes, rests⟩
  | .bytes => prefixFree_byte.sequence
  | .option item => item.prefixFree.option
  | .sequence item => item.prefixFree.sequence
  | .pair first second => first.prefixFree.pair second.prefixFree
  | .dictionary key item => key.prefixFree.dictionary item.prefixFree
  | .choice cases => cases.prefixFree

theorem Cases.prefixFree : ∀ cases : Cases, cases.domain.PrefixFree
  | .nil => fun one => one.elim
  | .cons payload rest => payload.prefixFree.sum rest.prefixFree
end

mutual
/-- The order of the values of a shape. Numbers are in their order, nothing comes before everything else, a list before
those that it begins, and of two cases the first. -/
def Shape.Less : (shape : Shape) → shape.Value → shape.Value → Prop
  | .unit => fun _ _ => False
  | .bool => fun one other : Bool => one.toNat < other.toNat
  | .raw count => fun one other : BitVec (8 * count) => one.toNat < other.toNat
  | .signed count => fun one other : BitVec (8 * count) => one.toInt < other.toInt
  | .natural bits => fun one other : BitVec bits => one.toNat < other.toNat
  | .integer bits => fun one other : BitVec bits => one.toInt < other.toInt
  | .char => fun one other : Char => one.toNat < other.toNat
  | .text => fun one other => List.Lex (fun byte next : UInt8 => byte.toNat < next.toNat) (utf8 one) (utf8 other)
  | .bytes => List.Lex fun byte next : UInt8 => byte.toNat < next.toNat
  | .option item => Option.lt item.Less
  | .sequence item => List.Lex item.Less
  | .pair first second => fun one other => first.Less one.1 other.1 ∨ one.1 = other.1 ∧ second.Less one.2 other.2
  | .dictionary key item => fun one other =>
      List.Lex (fun binding next => key.Less binding.1 next.1 ∨ binding.1 = next.1 ∧ item.Less binding.2 next.2)
        (Dictionary.entries one) (Dictionary.entries other)
  | .choice cases => cases.Less

def Cases.Less : (cases : Cases) → cases.Value → cases.Value → Prop
  | .nil => fun one _ => one.elim
  | .cons payload rest => Sum.Lex payload.Less rest.Less
end

mutual
/-- The order of the places is the order of the values. -/
theorem Shape.before_eq_less : ∀ shape : Shape, shape.domain.Before = shape.Less
  | .unit => funext fun _ => funext fun _ => eq_false (List.lt_irrefl [])
  | .bool => before_number
  | .raw _ => before_number
  | .signed _ => before_signed
  | .natural _ => before_number
  | .integer _ => before_signed
  | .char => before_number
  | .text => by
      funext one other
      exact congrFun (congrFun (prefixFree_byte.before_sequence.trans (congrArg List.Lex before_number)) (utf8 one))
        (utf8 other)
  | .bytes => prefixFree_byte.before_sequence.trans (congrArg List.Lex before_number)
  | .option item => before_option.trans (congrArg Option.lt item.before_eq_less)
  | .sequence item => item.prefixFree.before_sequence.trans (congrArg List.Lex item.before_eq_less)
  | .pair first second => by
      refine first.prefixFree.before_pair.trans ?_
      rw [first.before_eq_less, second.before_eq_less]
      rfl
  | .dictionary key item => by
      refine (key.prefixFree.before_dictionary item.prefixFree).trans ?_
      rw [key.prefixFree.before_pair, key.before_eq_less, item.before_eq_less]
      rfl
  | .choice cases => cases.before_eq_less

theorem Cases.before_eq_less : ∀ cases : Cases, cases.domain.Before = cases.Less
  | .nil => funext fun one => one.elim
  | .cons payload rest => by
      refine before_sum.trans ?_
      rw [payload.before_eq_less, rest.before_eq_less]
      rfl
end

theorem Shape.less_trichotomy (shape : Shape) (one other : shape.Value) :
    shape.Less one other ∨ one = other ∨ shape.Less other one := by
  rw [← shape.before_eq_less]
  exact shape.prefixFree.before_trichotomy one other

namespace Dictionary

variable {κ : Type} {place : κ → List Nat} {α : Type} {one other : Dictionary place α}

theorem keys_nodup (table : Dictionary place α) : (table.entries.map Prod.fst).Nodup := by
  rw [List.Nodup, List.pairwise_map]
  refine table.ordered.imp ?_
  intro before after less same
  rw [same] at less
  exact List.lt_irrefl _ less

theorem ext_mem (same : ∀ entry, entry ∈ one.entries ↔ entry ∈ other.entries) : one = other := by
  have distinct (table : Dictionary place α) : table.entries.Nodup :=
    List.Nodup.of_map Prod.fst table.keys_nodup
  have arranged : one.entries.Perm other.entries :=
    (List.perm_ext_iff_of_nodup (distinct one) (distinct other)).mpr same
  exact eq_of_entries (arranged.eq_of_pairwise
    (fun before after _ _ less more => absurd more (List.lt_asymm less)) one.ordered other.ordered)

theorem mem_insertInto_iff (injective : ∀ one other, place one = place other → one = other) {key : κ} {value : α}
    {entries : List (κ × α)} (new : key ∉ entries.map Prod.fst) {entry : κ × α} :
    entry ∈ insertInto place key value entries ↔ entry = (key, value) ∨ entry ∈ entries := by
  induction entries with
  | nil => simp [insertInto]
  | cons first rest ih =>
      rw [List.map_cons, List.mem_cons, not_or] at new
      have apart : place key ≠ place first.1 := fun same => new.1 (injective _ _ same)
      rw [insertInto, if_neg apart]
      split
      · rw [List.mem_cons]
      · rw [List.mem_cons, ih new.2, List.mem_cons, or_left_comm]

theorem exists_of_nodup (injective : ∀ one other, place one = place other → one = other) {bindings : List (κ × α)}
    (distinct : (bindings.map Prod.fst).Nodup) :
    ∃ table : Dictionary place α, ∀ entry, entry ∈ table.entries ↔ entry ∈ bindings := by
  induction bindings with
  | nil => exact ⟨empty, fun entry => Iff.rfl⟩
  | cons first rest ih =>
      rw [List.map_cons, List.nodup_cons] at distinct
      obtain ⟨table, same⟩ := ih distinct.2
      have new : first.1 ∉ table.entries.map Prod.fst := by
        intro member
        obtain ⟨entry, inside, key⟩ := List.mem_map.mp member
        exact distinct.1 (List.mem_map.mpr ⟨entry, (same entry).mp inside, key⟩)
      refine ⟨table.insert first.1 first.2, ?_⟩
      intro entry
      rw [insert, mem_insertInto_iff injective new, same, List.mem_cons]

end Dictionary

/-- Bindings of which no two are of the same key make one map, and no other has the same bindings. -/
theorem Shape.existsUnique_dictionary (key item : Shape) {bindings : List (key.Value × item.Value)}
    (distinct : (bindings.map Prod.fst).Nodup) :
    ∃! table : Dictionary key.domain.place item.Value, ∀ entry, entry ∈ table.entries ↔ entry ∈ bindings := by
  have injective (one other : key.Value) (same : key.domain.place one = key.domain.place other) : one = other :=
    (key.prefixFree one other [] [] (by rw [same])).1
  obtain ⟨table, holds⟩ := Dictionary.exists_of_nodup injective distinct
  refine ⟨table, holds, ?_⟩
  intro other holds'
  exact Dictionary.ext_mem fun entry => (holds' entry).trans (holds entry).symm

end TwinLog
