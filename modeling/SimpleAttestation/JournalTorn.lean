import SimpleAttestation.JournalScan

set_option autoImplicit false

/-!
# Torn records and torn blocks

A record holds its counter and the complement. A torn program can only raise bits, so
what it leaves is blank, the intended record, or nothing the load accepts.
-/
namespace SimpleAttestation.JournalTorn
open ByteStrings Wire Crypto CallProgram Journal JournalScan

theorem raised_bit {target actual : UInt8} (h : Raised target actual) {i : ℕ} (hi : i < 8)
    (one : bit target i = true) : bit actual i = true := by
  rcases h i hi with set | same
  · exact set
  · rw [same, one]

theorem raised_word {ts as : List UInt8} (h : List.Forall₂ Raised ts as) (len : 4 ≤ ts.length)
    {i : ℕ} (hi : i < 32) (one : (simpleGetU32 ts).toBitVec.getLsbD i = true) :
    (simpleGetU32 as).toBitVec.getLsbD i = true := by
  obtain _ | @⟨a, a', ts, as, h0, h⟩ := h
  · cases len
  obtain _ | @⟨b, b', ts, as, h1, h⟩ := h
  · exact absurd len (by simp)
  obtain _ | @⟨c, c', ts, as, h2, h⟩ := h
  · exact absurd len (by simp)
  obtain _ | @⟨d, d', ts, as, h3, h⟩ := h
  · exact absurd len (by simp)
  rw [get_bit _ _ _ _ _ _ hi] at one ⊢
  split_ifs at one ⊢ with h8 h16 h24
  · exact raised_bit h3 h8 one
  · exact raised_bit h2 (by omega) one
  · exact raised_bit h1 (by omega) one
  · exact raised_bit h0 (by omega) one

theorem raised_drop {ts as : List UInt8} (h : List.Forall₂ Raised ts as) (n : ℕ) :
    List.Forall₂ Raised (ts.drop n) (as.drop n) :=
  List.forall₂_drop n h

theorem raised_blank {d : Bytes 32} (h : RaisedBytes blank d) : d = blank := by
  have all : ∀ a ∈ d.data, a = 255 :=
    raised_full_list h fun t ht => List.eq_of_mem_replicate ht
  apply (erased_iff d).mp
  simpa [erased] using all

/-- Counter and complement together fix every bit. -/
theorem torn_record {tc : TinyCrypt} {key : Bytes 32} {c c' : UInt32} {r d : Bytes 32}
    (h : RaisedBytes r d) (made : recordOf tc key c = some r) (valid : recordOf tc key c' = some d) :
    c' = c ∧ d = r := by
  have get := recordOf_get made
  have get' := recordOf_get valid
  have comp : ∀ {e : UInt32} {x : Bytes 32}, recordOf tc key e = some x →
      simpleGetU32 (x.data.drop 4) = ~~~e := by
    intro e x hx
    obtain ⟨mac, _, rfl⟩ := Option.map_eq_some_iff.mp hx
    have same := (record_eq_iff (makeRecord e mac) mac).mp (by rw [get_makeRecord])
    rw [same.1, get_makeRecord]
  have word := fun i hi => raised_word h (i := i) (by simp) hi
  have cword := fun i hi => raised_word (raised_drop h 4) (i := i) (by simp) hi
  rw [get, get'] at word
  rw [comp made, comp valid] at cword
  have same : c' = c := by
    apply UInt32.toBitVec_inj.mp
    apply BitVec.eq_of_getLsbD_eq
    intro i hi
    have up := word i hi
    have down := cword i hi
    simp only [UInt32.toBitVec_not, BitVec.getLsbD_not, hi, decide_true, Bool.true_and] at down
    cases hc : c.toBitVec.getLsbD i with
    | true => exact up hc
    | false => simpa [hc] using down
  rw [same] at valid
  exact ⟨same, Option.some.inj (valid.symm.trans made)⟩

section
variable {tc : TinyCrypt} {key : Bytes 32} {gap : Bool} {last : UInt32} {L : List (Bytes 32)}
  {cs : List UInt32}

theorem holds_room (h : Holds tc key gap last L cs) (room : cs.length < L.length) :
    L[cs.length]? = some blank := by
  induction h with
  | nil => cases room
  | blank => rfl
  | record made fresh rest ih =>
    rw [List.length_cons, List.getElem?_cons_succ]
    exact ih (Nat.lt_of_succ_lt_succ room)

theorem holds_nil (h : Holds tc key gap last L cs) (none : cs = []) (gap' : Bool)
    (last' : UInt32) : Holds tc key gap' last' L [] := by
  induction h generalizing gap' with
  | nil => exact .nil
  | blank rest ih => exact .blank (ih rfl true)
  | record => cases none

theorem holds_append {c : UInt32} {r : Bytes 32} (h : Holds tc key gap last L cs)
    (hgap : gap = false) (made : recordOf tc key c = some r) (above : last < c)
    (fresh : ∀ d ∈ cs, d < c) (room : cs.length < L.length) :
    Holds tc key gap last (L.set cs.length r) (cs ++ [c]) := by
  induction h with
  | nil => cases room
  | @blank gap last L rest =>
    subst hgap
    exact .record made above (holds_nil rest rfl _ _)
  | record made' fresh' rest ih =>
    refine .record made' fresh' (ih rfl (fresh _ List.mem_cons_self) ?_ ?_)
    · exact fun d hd => fresh d (List.mem_cons_of_mem _ hd)
    · exact Nat.lt_of_succ_lt_succ room

theorem holds_written {d : Bytes 32} {ds : List UInt32} (h : Holds tc key gap last L cs)
    (room : cs.length < L.length) (g : Holds tc key gap last (L.set cs.length d) ds) :
    d = blank ∧ ds = cs ∨ ∃ c, recordOf tc key c = some d ∧ ds = cs ++ [c] := by
  induction h generalizing ds with
  | nil => cases room
  | blank rest =>
    cases g with
    | blank => exact Or.inl ⟨rfl, rfl⟩
    | record made _ rest' =>
      exact Or.inr ⟨_, made, congrArg _ (holds_unique rest' (holds_nil rest rfl _ _))⟩
  | record made fresh rest ih =>
    cases g with
    | blank => exact absurd made recordOf_ne_blank
    | record made' _ rest' =>
      obtain rfl := (recordOf_get made).symm.trans (recordOf_get made')
      rcases ih (Nat.lt_of_succ_lt_succ room) rest' with ⟨hd, rfl⟩ | ⟨c, hc, rfl⟩
      · exact Or.inl ⟨hd, rfl⟩
      · exact Or.inr ⟨c, hc, rfl⟩

/-- A torn erase leaves a first part of the block's records, or a block that is refused. -/
theorem holds_torn_erase {L' : List (Bytes 32)} {ds : List UInt32} (h : Holds tc key gap last L cs)
    (torn : List.Forall₂ RaisedBytes L L') (g : Holds tc key gap last L' ds) : ds <+: cs := by
  induction h generalizing L' ds with
  | nil =>
    cases torn
    cases g
    exact List.prefix_rfl
  | blank rest =>
    obtain _ | ⟨first, torn⟩ := torn
    obtain rfl := raised_blank first
    cases g with
    | blank => exact List.prefix_rfl
    | record made => exact absurd made recordOf_ne_blank
  | record made fresh rest ih =>
    obtain _ | ⟨first, torn⟩ := torn
    cases g with
    | blank => exact List.nil_prefix
    | record made' _ rest' =>
      obtain ⟨rfl, -⟩ := torn_record first made made'
      exact List.cons_prefix_cons.mpr ⟨rfl, ih torn rest'⟩

end

end SimpleAttestation.JournalTorn
