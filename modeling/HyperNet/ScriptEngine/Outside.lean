import HyperNet.ScriptEngine.Discipline

/-! # Where unserializing reads outside its string

`readString` does not compare the length of a STRING with what is left, and `lua_pushlstring`
copies that many bytes. What else goes wrong in a string is an error, which the caller can
catch. -/
namespace HyperNet.ScriptEngine
open HyperNet.Core HyperNet.Public
open HyperNet.Logic (readS32)

/-- The copy leaves the string and the byte behind it. A length of `-1` becomes the largest
size; the others below zero are refused. -/
def Outside (len : Int) (left : Nat) : Prop := len = -1 ∨ (left : Int) + 1 < len

/-- What goes wrong is an error of Lua. -/
def Caught {α : Type} (r : EStateM.Result Failure Machine α) : Prop :=
  ∀ failure m, r = .error failure m → ∃ message, failure = .error message

namespace Caught
variable {α β : Type} {x : Seri α} {f : α → Seri β} {m : Machine}

theorem ok (a : α) (m : Machine) : Caught (.ok a m : EStateM.Result Failure Machine α) := nofun

theorem error (message : String) (m : Machine) :
    Caught (.error (.error message) m : EStateM.Result Failure Machine α) := by
  intro failure m' h
  cases h
  exact ⟨message, rfl⟩

theorem bind (h : Caught (x m)) (hf : ∀ a m', x m = .ok a m' → Caught (f a m')) :
    Caught ((x >>= f) m) := by
  cases hx : x m with
  | ok a m' =>
    rw [bind_ok hx]
    exact hf a m' hx
  | error failure m' =>
    rw [bind_error hx]
    rw [hx] at h
    intro failure' m'' heq
    cases heq
    exact h failure m' rfl

/-- A C function returns its values where it does not fail. -/
theorem results {f : Seri Nat} : Caught (ScriptEngine.results f m) ↔ Caught (f m) := by
  unfold ScriptEngine.results
  cases f m with
  | ok n m' => exact iff_of_true (.ok _ _) (.ok _ _)
  | error failure m' =>
    constructor
    · intro h failure' m'' heq
      cases heq
      exact h failure m' rfl
    · intro h failure' m'' heq
      cases heq
      exact h failure m' rfl

end Caught

section Outside
variable {b : List UInt8}

/-! ## One value -/

/-- What is behind the position is in the buffer, with the byte behind it. -/
theorem caught_pushlstring {buffer : List UInt8} {position len : Int} {left : Nat}
    (hposition : 0 ≤ position) (hbuffer : position + left + 1 = buffer.length) (m : Machine) :
    (¬Outside len left → Caught (pushlstring buffer position len m)) ∧
      (Outside len left → ∃ m', pushlstring buffer position len m = .error .undefined m') := by
  unfold Outside pushlstring LuaState.pushlstring
  constructor
  · intro hout
    split
    · exact .ok _ _
    · next failure hpush =>
      split at hpush
      · cases hpush
        exact .error _ _
      split at hpush
      · next hlen => exact absurd (Or.inl hlen) hout
      split at hpush
      · cases hpush
      split at hpush
      · cases hpush
      · next hinside => omega
  · intro hout
    rw [if_neg (show ¬len < -1 by omega)]
    by_cases hlen : len = -1
    · rw [if_pos hlen]
      exact ⟨_, rfl⟩
    · rw [if_neg hlen, if_neg (show ¬len = 0 by omega),
        if_neg (show ¬(0 ≤ position ∧ position + len ≤ buffer.length) by omega)]
      exact ⟨_, rfl⟩

/-- The length of a STRING is there. -/
theorem caught_pushString {length rest : List UInt8} {m : Machine}
    (h : Reads b m.s (length ++ rest)) (hlength : length.length = 4) :
    (¬Outside (readS32 length 0) rest.length → Caught (pushString m)) ∧
      (Outside (readS32 length 0) rest.length → ∃ m', pushString m = .error .undefined m') := by
  have hskip := h.skip
  rw [hlength] at hskip
  have hoffset := hskip.offset
  have hbuffer : (b ++ [(0 : UInt8)]).length = b.length + 1 := List.length_append
  rw [pushString_length h hlength]
  exact caught_pushlstring hskip.offset_nonneg (by omega) _

/-- Where nothing is left there is no value. -/
theorem SerializeStream.Spent.caught {m : Machine} (h : m.s.Spent) (fuel : Nat)
    (f : Unit → Seri Unit) : Caught ((ScriptEngine.pushOne (fuel + 1) >>= f) m) := by
  have hread : onStream (·.read 1) m = .ok none m := by
    unfold Spent at h
    rw [onStream, h]
  have hfetch : fetch 1 m = .error (.error "unserialize failed") m := by
    rw [fetch, bind_ok hread]
    rfl
  have hfails : ScriptEngine.pushOne (fuel + 1) m = .error (.error "unserialize failed") m := by
    rw [ScriptEngine.pushOne, bind_error hfetch]
  rw [bind_error hfails]
  exact .error _ m

mutual

/-- A STRING whose bytes are not there is copied from outside. -/
theorem Meets.undefined {bytes : List UInt8} : Meets Outside bytes →
    ∀ {fuel : Nat} {m : Machine}, Reads b m.s bytes → 2 * bytes.length + 1 ≤ fuel →
      ∃ m', pushOne fuel m = .error .undefined m'
  | @Meets.string _ length rest hlength hout, fuel, m, h, hfuel => by
    obtain ⟨bound, rfl⟩ : ∃ k, fuel = k + 1 := ⟨fuel - 1, by omega⟩
    have htype : Reads b m.s ([STRING] ++ (length ++ rest)) := h
    have hfetch : fetch 1 m = .ok [STRING] (m.skip 1) :=
      htype.fetch (show [STRING].length ≤ 8 by simp)
    rw [pushOne, bind_ok hfetch]
    exact (caught_pushString htype.skip hlength).2 hout
  | .table hin, fuel, m, h, hfuel => by
    obtain ⟨bound, rfl⟩ : ∃ k, fuel = k + 1 := ⟨fuel - 1, by omega⟩
    obtain ⟨s, hm, hreads⟩ : ∃ s, pushOne (bound + 1) m = pushEntries bound ⟨m.L.newtable, s⟩ ∧ _ :=
      pushOne_newtable h
    have hheap : (m.L.heap ++ [Table.empty]).length = m.L.heap.length + 1 := List.length_append
    rw [List.length_cons] at hfuel
    rw [hm]
    exact EntriesMeet.undefined hin hreads rfl
      (show m.L.heap.length < (m.L.heap ++ [Table.empty]).length by omega) (by omega)

theorem EntriesMeet.undefined {bytes : List UInt8} : EntriesMeet Outside bytes →
    ∀ {fuel : Nat} {m : Machine} {address : Nat} {stack : List LuaValue},
      Reads b m.s bytes → m.L.stack = .table address :: stack → address < m.L.heap.length →
      2 * bytes.length + 2 ≤ fuel → ∃ m', pushEntries fuel m = .error .undefined m'
  | .key hkey, fuel, m, address, stack, h, hstack, haddress, hfuel => by
    obtain ⟨bound, rfl⟩ : ∃ k, fuel = k + 1 := ⟨fuel - 1, by omega⟩
    obtain ⟨m', hm'⟩ := Meets.undefined hkey h (show _ ≤ bound by omega)
    exact ⟨m', by rw [pushEntries, bind_error hm']⟩
  | .value hne hwf hvalue, fuel, m, address, stack, h, hstack, haddress, hfuel => by
    obtain ⟨bound, rfl⟩ : ∃ k, fuel = k + 1 := ⟨fuel - 1, by omega⟩
    rw [List.length_append] at hfuel
    obtain ⟨m₁, hm₁, hreads₁, hstack₁, _⟩ := pushOne_whole _ bound hwf h (by omega)
    obtain ⟨m', hm'⟩ := Meets.undefined hvalue hreads₁ (show _ ≤ bound by omega)
    exact ⟨m', by
      rw [pushEntries_key hm₁ hstack₁ (Item.build_ne_nil hne m.L.heap), bind_error hm']⟩
  | @EntriesMeet.later _ keyItem valueItem _ hkey hkeyWf hvalueWf hlater, fuel, m, address, stack,
    h, hstack, haddress, hfuel => by
    obtain ⟨bound, rfl⟩ : ∃ k, fuel = k + 1 := ⟨fuel - 1, by omega⟩
    have hpos := keyItem.length_bytes_pos
    rw [List.length_append, List.length_append] at hfuel
    obtain ⟨m₃, hm₃, hreads₃, hstack₃, _, haddress₃⟩ :=
      pushEntries_round hkey hkeyWf hvalueWf h hstack haddress
        (show 2 * keyItem.bytes.length + 2 * valueItem.bytes.length + 1 ≤ bound by omega)
    rw [hm₃]
    exact EntriesMeet.undefined hlater hreads₃ hstack₃ haddress₃ (by omega)

end

/-! ## A string -/

/-- A STRING in one of its values is copied from outside. -/
theorem StringMeets.undefined {bound : Nat} (hbound : 2 * b.length + 2 ≤ bound)
    {bytes : List UInt8} (hbad : StringMeets Outside bytes) :
    ∀ {fuel i : Nat} {m : Machine}, Reads b m.s bytes → bytes.length < fuel →
      ∃ m', pushValues bound fuel i m = .error .undefined m' := by
  induction hbad with
  | @here bytes hbad =>
    intro fuel i m h hfuel
    obtain ⟨fuel, rfl⟩ : ∃ k, fuel = k + 1 := ⟨fuel - 1, by omega⟩
    cases bytes with
    | nil => cases hbad
    | cons type rest =>
      obtain ⟨m₀, hcheck, hs, _, _⟩ := checkstack_round i m
      rw [← hs] at h
      have hsuffix := h.suffix.length_le
      obtain ⟨m', hm'⟩ := hbad.undefined h (show _ ≤ bound + 1 by omega)
      exact ⟨m', by rw [pushValues_one bound fuel hcheck h, bind_error hm']⟩
  | @later item bytes hwf _ ih =>
    intro fuel i m h hfuel
    have hpos := item.length_bytes_pos
    have hsuffix := h.suffix.length_le
    rw [List.length_append] at hfuel hsuffix
    obtain ⟨fuel, rfl⟩ : ∃ k, fuel = k + 1 := ⟨fuel - 1, by omega⟩
    obtain ⟨m₁, hm₁, htook⟩ := pushValues_item bound fuel i hwf h (by omega)
    rw [hm₁]
    exact ih htook.reads (by omega)

/-- The string is made of whole encodings, of which the last may be a STRING that is one byte
longer than what is left. -/
inductive Unserializes : List UInt8 → Prop
  | nil : Unserializes []
  | longer {length rest : List UInt8} (hlength : length.length = 4)
      (h : readS32 length 0 = rest.length + 1) : Unserializes (STRING :: (length ++ rest))
  | item {item : Item} {bytes : List UInt8} (hwf : item.WellFormed Item.IsKey)
      (h : Unserializes bytes) : Unserializes (item.bytes ++ bytes)

/-- The string that ends one byte behind the end is pushed, and nothing is left. -/
theorem pushString_longer {length rest : List UInt8} {m : Machine}
    (h : Reads b m.s (length ++ rest)) (hlength : length.length = 4)
    (hlonger : readS32 length 0 = rest.length + 1) :
    ∃ m', pushString m = .ok () m' ∧ m'.s.Spent := by
  have hskip := h.skip
  rw [hlength] at hskip
  have hoffset := hskip.offset
  have hnonneg := hskip.offset_nonneg
  have hbuffer : (b ++ [(0 : UInt8)]).length = b.length + 1 := List.length_append
  have hspent := spent_behind hskip.len hskip.fits
    (show (m.skip 4).s.offset + readS32 length 0 = b.length + 1 by omega)
  have hpush : ∃ L, m.L.pushlstring (b ++ [0]) (m.skip 4).s.offset (readS32 length 0) = .ok L := by
    rw [LuaState.pushlstring, if_neg (by omega), if_neg (by omega), if_neg (by omega),
      if_pos (by omega)]
    exact ⟨_, rfl⟩
  obtain ⟨L, hL⟩ := hpush
  rw [pushString_length h hlength]
  exact ⟨_, pushlstring_ok hL, hspent⟩

theorem Unserializes.ok {bound : Nat} (hbound : 2 * b.length + 2 ≤ bound) {bytes : List UInt8}
    (h : Unserializes bytes) :
    ∀ {fuel i : Nat} {m : Machine}, Reads b m.s bytes → bytes.length < fuel →
      ∃ m', pushValues bound fuel i m = .ok () m' := by
  induction h with
  | nil =>
    intro fuel i m h hfuel
    obtain ⟨fuel, rfl⟩ : ∃ k, fuel = k + 1 := ⟨fuel - 1, by omega⟩
    obtain ⟨m', hm', _⟩ := pushValues_end bound fuel i h
    exact ⟨m', hm'⟩
  | @longer length rest hlength hlonger =>
    intro fuel i m h hfuel
    obtain ⟨fuel, rfl⟩ : ∃ k, fuel = k + 2 := ⟨fuel - 2, by simp at hfuel; omega⟩
    obtain ⟨m₀, hcheck, hs, _, _⟩ := checkstack_round i m
    rw [← hs] at h
    have htype : Reads b m₀.s ([STRING] ++ (length ++ rest)) := h
    have hfetch : fetch 1 m₀ = .ok [STRING] (m₀.skip 1) :=
      htype.fetch (show [STRING].length ≤ 8 by simp)
    obtain ⟨m₁, hm₁, hspent⟩ := pushString_longer htype.skip hlength hlonger
    have hone : pushOne (bound + 1) m₀ = .ok () m₁ := by
      rw [pushOne, bind_ok hfetch]
      exact hm₁
    obtain ⟨m₂, hm₂, _⟩ := pushValues_spent bound fuel (i + 1) hspent
    exact ⟨m₂, by rw [pushValues_one bound (fuel + 1) hcheck h, bind_ok hone, hm₂]⟩
  | @item item bytes hwf _ ih =>
    intro fuel i m h hfuel
    have hpos := item.length_bytes_pos
    have hsuffix := h.suffix.length_le
    rw [List.length_append] at hfuel hsuffix
    obtain ⟨fuel, rfl⟩ : ∃ k, fuel = k + 1 := ⟨fuel - 1, by omega⟩
    obtain ⟨m₁, hm₁, htook⟩ := pushValues_item bound fuel i hwf h (by omega)
    rw [hm₁]
    exact ih htook.reads (by omega)

end Outside

end HyperNet.ScriptEngine
