import ContractCode.Proofs.PassedItems

/-! # Well-formed items are passed over

The counters are merged, so they do not show how the containers of an item are nested.
They show enough. Where a container ends by its count they are exact, and inside of an
open container, which ends with a break, they are never too high. So a well-formed item
is passed over to its end and not farther, unless it has so many bytes that the counters
overflow.
-/

namespace ContractCode.Cbor

namespace Due

/-! ## What the counters stand for

Open containers divide an item into levels. On the innermost level there are the items
that are left in the definite containers inside of the innermost open one, then come
those between that one and the next open one, and so on. The counters stand for a number
of items on the innermost level and for a list of such numbers, one for each level
around it. Only the last number has to be exact: on the other levels a break tells the
end.
-/

/-- The containers around an item stand for so many items that are left after it. -/
inductive Below : List (Option Nat) → Nat → List Nat → Prop
  | bottom : Below [] 0 []
  | sized {around : List (Option Nat)} {left : Nat} {outer : List Nat} (count : Nat)
      (below : Below around left outer) :
      Below (some count :: around) (count + left) outer
  | openEnded {around : List (Option Nat)} {left : Nat} {outer : List Nat} (any : Nat)
      (below : Below around left outer) : Below (none :: around) any (left :: outer)

/-- Before an item that is due, the innermost definite container counts one item less
than are left. -/
inductive Top : List (Option Nat) → Nat → List Nat → Prop
  | sized {around : List (Option Nat)} {left : Nat} {outer : List Nat} (count : Nat)
      (below : Below around left outer) :
      Top (some count :: around) (count + left + 1) outer
  | openEnded {around : List (Option Nat)} {left : Nat} {outer : List Nat} (any : Nat)
      (below : Below around left outer) : Top (none :: around) any (left :: outer)

/-- The counters stand for so many items that are left. Before the first open container
they are exact. Open containers are only counted as long as none is opened with two
items due or more, which leaves nothing on the outermost level. From then on the stack
has them all. -/
inductive Tracks : Due → Nat → List Nat → Prop
  | exact {left : Nat} (some : 0 < left) : Tracks ⟨left, 0, []⟩ left []
  | openEnded {items left : Nat} {outer : List Nat} (fewer : items ≤ left)
      (last : outer.getLast? = some 0) :
      Tracks ⟨items, outer.length, []⟩ left outer
  | stacked {around : List (Option Nat)} {left : Nat} {outer : List Nat}
      (top : Top around left outer) :
      Tracks ⟨0, 0, around⟩ left outer

/-- So many items are left after a token, which may have been the last. -/
inductive Reached : Option Due → Nat → List Nat → Prop
  | ended : Reached none 0 []
  | done : Reached (some ⟨0, 0, []⟩) 0 []
  | going {due : Due} {left : Nat} {outer : List Nat} (tracks : Tracks due left outer) :
      Reached (some due) left outer

variable {due : Due} {around : List (Option Nat)} {items left inside : Nat}
  {outer : List Nat}

theorem reached_exact (left : Nat) : Reached (some ⟨left, 0, []⟩) left [] := by
  cases left with
  | zero => exact .done
  | succ left => exact .going (.exact (Nat.succ_pos left))

/-- Counting the item that has ended makes the next one due. -/
theorem Below.reached (below : Below around left outer) :
    Reached (count? ⟨0, 0, around⟩) left outer := by
  induction below with
  | bottom => exact .ended
  | sized count below induction =>
      cases count with
      | zero =>
          rw [Nat.zero_add]
          exact induction
      | succ count =>
          rw [Nat.add_right_comm]
          exact .going (.stacked (.sized count below))
  | openEnded any below => exact .going (.stacked (.openEnded any below))

theorem Top.below (top : Top around left outer) : Below around (left - 1) outer := by
  cases top with
  | sized count below => exact .sized count below
  | openEnded _ below => exact .openEnded (left - 1) below

theorem ne_nil_of_last (last : outer.getLast? = some 0) : outer ≠ [] := by
  rintro rfl
  cases last

theorem last_cons {first : Nat} (last : outer.getLast? = some 0) :
    (first :: outer).getLast? = some 0 := by
  rw [List.getLast?_cons, last]
  rfl

/-- Open containers that are merely counted. -/
theorem below_replicate (last : outer.getLast? = some 0) (left : Nat) :
    Below (List.replicate outer.length none) left outer := by
  induction outer generalizing left with
  | nil => cases last
  | cons first others induction =>
      cases others with
      | nil =>
          cases last
          exact .openEnded left .bottom
      | cons second others =>
          rw [List.getLast?_cons_cons] at last
          exact .openEnded left (induction last first)

theorem Tracks.isDone_eq (tracks : Tracks due left outer) : due.isDone = false := by
  cases tracks with
  | exact some => simp [isDone, Nat.ne_of_gt some]
  | @openEnded items left outer fewer last =>
      have isOpen := ne_nil_of_last last
      simp [isDone, isOpen]
  | stacked top =>
      cases top with
      | sized | openEnded => rfl

/-! ## What a token does -/

/-- A value leaves one item less. -/
theorem Tracks.leaf (tracks : Tracks due left outer) :
    Reached (due.after? .leaf) (left - 1) outer := by
  cases tracks with
  | exact some =>
      have counted : after? ⟨left, 0, []⟩ .leaf = Option.some ⟨left - 1, 0, []⟩ := by
        simp [after?, count?, isOutside, Nat.ne_of_gt some]
      rw [counted]
      exact reached_exact (left - 1)
  | @openEnded items _ _ fewer last =>
      have isOpen := ne_nil_of_last last
      have counted : after? ⟨items, outer.length, []⟩ .leaf =
          some ⟨items - 1, outer.length, []⟩ := by
        simp [after?, count?, isOutside, isOpen]
      rw [counted]
      exact .going (.openEnded (by omega) last)
  | stacked top => exact top.below.reached

/-- The head of a definite container leaves the items inside of it. -/
theorem Tracks.sized (tracks : Tracks due left outer) (fits : left + inside ≤ largest) :
    Reached (due.after? (.container (some inside))) (left - 1 + inside) outer := by
  cases inside with
  | zero => exact tracks.leaf
  | succ inside =>
      cases tracks with
      | exact some =>
          have due : left + (inside + 1) - 1 = left - 1 + (inside + 1) := by omega
          have counted : after? ⟨left, 0, []⟩ (.container (Option.some (inside + 1))) =
              Option.some ⟨left - 1 + (inside + 1), 0, []⟩ := by
            simp [after?, enter, count?, isOutside, Nat.ne_of_gt some,
              Nat.min_eq_left fits, due]
          rw [counted]
          exact reached_exact _
      | @openEnded items _ _ fewer last =>
          have isOpen := ne_nil_of_last last
          have counted : after? ⟨items, outer.length,
              []⟩ (.container (some (inside + 1))) =
              some ⟨min (items + (inside + 1)) largest - 1, outer.length, []⟩ := by
            simp [after?, enter, count?, isOutside, isOpen]
          rw [counted]
          exact .going (.openEnded (by omega) last)
      | stacked top =>
          rw [Nat.add_comm (left - 1)]
          exact (Below.sized (inside + 1) top.below).reached

/-- The head of an open container starts a level. -/
theorem Tracks.opened (tracks : Tracks due left outer) (fits : outer.length < largest) :
    Reached (due.after? (.container none)) 0 ((left - 1) :: outer) := by
  cases tracks with
  | @exact left some =>
      by_cases only : left < 2
      · have one : left = 1 := by omega
        subst one
        have counted : after? ⟨1, 0, []⟩ (.container none) =
            Option.some ⟨0, 1, []⟩ := by rfl
        rw [counted]
        exact .going (@Tracks.openEnded 0 0 [0] (Nat.le_refl 0) rfl)
      · have counted : after? ⟨left, 0, []⟩ (.container none) =
            Option.some ⟨0, 0, [none, Option.some (left - 1)]⟩ := by
          simp [after?, enter, count?, isOutside, Nat.ne_of_gt some, only, withoutEmpty]
        rw [counted]
        exact .going (.stacked (.openEnded 0 (.sized (left - 1) .bottom)))
  | @openEnded items _ _ fewer last =>
      have isOpen := ne_nil_of_last last
      by_cases few : items < 2
      · have counted : after? ⟨items, outer.length, []⟩ (.container none) =
            some ⟨items - 1, ((left - 1) :: outer).length, []⟩ := by
          simp [after?, enter, count?, isOutside, isOpen, few, Nat.min_eq_left fits]
        rw [counted]
        exact .going (.openEnded (by omega) (last_cons last))
      · have counted : after? ⟨items, outer.length, []⟩ (.container none) =
            some ⟨0, 0,
              none :: some (items - 1) :: List.replicate outer.length none⟩ := by
          simp [after?, enter, count?, isOutside, isOpen, few, withoutEmpty]
        have counts : items - 1 + (left - items) = left - 1 := by omega
        rw [counted, ← counts]
        exact .going
          (.stacked
            (.openEnded 0 (.sized (items - 1) (below_replicate last (left - items)))))
  | stacked top => exact (Below.openEnded 0 top.below).reached

/-- A break ends the innermost level. -/
theorem Tracks.closed (tracks : Tracks due 0 (left :: outer)) :
    Reached (due.after? .breakMark) left outer := by
  cases tracks with
  | @openEnded items _ _ fewer last =>
      have none : items = 0 := by omega
      subst none
      cases outer with
      | nil =>
          cases last
          exact .ended
      | cons next outer =>
          rw [List.getLast?_cons_cons] at last
          exact .going (.openEnded (Nat.zero_le left) last)
  | stacked top =>
      cases top with
      | openEnded _ below => exact below.reached

/-! ## What an item does

An item takes one from the items that are left. The tokens of the items inside of it are
followed by others, so it is stated with any tokens after those of the item.
-/

/-- The tokens are passed after this. After the last token of all there are none. -/
def PassesOn : Option Due → List Token → Prop
  | none, tokens => tokens = []
  | some due, tokens => due.Passes tokens

theorem Tracks.passes_cons {token : Token} {tokens : List Token}
    (tracks : Tracks due left outer)
    (later : PassesOn (due.after? token) tokens) : due.Passes (token :: tokens) := by
  cases counted : due.after? token with
  | none =>
      rw [counted] at later
      rw [show tokens = [] from later]
      exact .last tracks.isDone_eq counted
  | some next =>
      rw [counted] at later
      exact .step tracks.isDone_eq counted later

/-- If items are left then the passing goes on. -/
theorem Reached.exists_tracks {result : Option Due} (reached : Reached result left outer)
    (some : 1 ≤ left ∨ outer ≠ []) :
    ∃ due, result = Option.some due ∧ Tracks due left outer := by
  cases reached with
  | ended => simp at some
  | done => simp at some
  | going tracks => exact ⟨_, rfl, tracks⟩

end Due

open Due

theorem AreTokens.append {tokens others : List Token} {bytes more : Bytes}
    (areTokens : AreTokens tokens bytes) (areOthers : AreTokens others more) :
    AreTokens (tokens ++ others) (bytes ++ more) := by
  induction areTokens with
  | nil => exact areOthers
  | cons isToken _ induction =>
      rw [List.append_assoc]
      exact .cons isToken induction

/-- The bytes have tokens that take so many items from what is left. The bound is there
for the counters: they do not overflow if there are not too many items left and not too
many bytes. -/
def Takes (count : Nat) (bytes : Bytes) : Prop :=
  ∃ tokens, AreTokens tokens bytes ∧
    ∀ (result : Option Due) (left : Nat) (outer : List Nat) (more : List Token),
      Reached result left outer → count ≤ left ∨ outer ≠ [] →
      left + outer.length + bytes.length ≤ largest + count →
      (∀ later, Reached later (left - count) outer → PassesOn later more) →
      PassesOn result (tokens ++ more)

variable {count inside : Nat} {bytes head body : Bytes}

theorem takes_nil : Takes 0 [] := by
  refine ⟨[], .nil, ?_⟩
  intro result left outer more reached _ _ continues
  exact continues result reached

theorem Takes.cons {item : Bytes} (first : Takes 1 item) (others : Takes count body)
    (some : 0 < item.length)
    (enough : count ≤ body.length) : Takes (count + 1) (item ++ body) := by
  rcases first with ⟨tokens, areTokens, takes⟩
  rcases others with ⟨later, areLater, takesLater⟩
  refine ⟨tokens ++ later, areTokens.append areLater, ?_⟩
  intro result left outer more reached fits short continues
  rw [List.length_append] at short
  rw [List.append_assoc]
  apply takes result left outer _ reached
    (fits.imp_left (Nat.le_trans (Nat.le_add_left 1 count))) (by omega)
  intro next reachedNext
  apply takesLater next (left - 1) outer more reachedNext
    (fits.imp_left Nat.le_sub_one_of_lt) (by omega)
  intro last reachedLast
  rw [Nat.sub_sub, Nat.add_comm 1] at reachedLast
  exact continues last reachedLast

theorem length_le_flatten {items : List Bytes} (areItems : ∀ item ∈ items, IsItem item) :
    items.length ≤ items.flatten.length :=
  AreItems.le_length ⟨items, rfl, areItems, rfl⟩

theorem takes_flatten {items : List Bytes} (all : ∀ item ∈ items, Takes 1 item)
    (areItems : ∀ item ∈ items, IsItem item) : Takes items.length items.flatten := by
  induction items with
  | nil => exact takes_nil
  | cons item items induction =>
      rw [List.forall_mem_cons] at all areItems
      exact .cons all.1 (induction all.2 areItems.2)
        (List.length_pos_iff.mpr areItems.1.ne_nil)
        (length_le_flatten areItems.2)

theorem takes_leaf (isToken : IsToken .leaf bytes) : Takes 1 bytes := by
  refine ⟨[.leaf], isToken.areTokens, ?_⟩
  intro result left outer more reached some _ continues
  rcases reached.exists_tracks some with ⟨due, rfl, tracks⟩
  exact tracks.passes_cons (continues _ tracks.leaf)

/-- A head takes one item, and the items inside make up for themselves. -/
theorem Takes.sized (isToken : IsToken (.container (some inside)) head)
    (told : count ≤ largest → inside = count) (takes : Takes count body)
    (enough : count ≤ body.length) :
    Takes 1 (head ++ body) := by
  have headLength := List.length_pos_iff.mpr isToken.ne_nil
  rcases takes with ⟨tokens, areTokens, takes⟩
  refine ⟨_ :: tokens, .cons isToken areTokens, ?_⟩
  intro result left outer more reached some short continues
  rw [List.length_append] at short
  rcases reached.exists_tracks some with ⟨due, rfl, tracks⟩
  rcases told (by omega) with rfl
  apply tracks.passes_cons
  apply takes _ _ outer more (tracks.sized (by omega))
    (.inl (Nat.le_add_left _ _)) (by omega)
  rw [Nat.add_sub_cancel]
  exact continues

theorem Takes.openEnded {first : UInt8} (isToken : IsToken (.container none) [first])
    (takes : Takes count body) : Takes 1 (first :: body ++ [breakByte]) := by
  rcases takes with ⟨tokens, areTokens, takes⟩
  have areAll : AreTokens (.container none :: (tokens ++ [.breakMark]))
      ([first] ++ (body ++ [breakByte])) :=
    .cons isToken (areTokens.append IsToken.breakMark.areTokens)
  refine ⟨_, areAll, ?_⟩
  intro result left outer more reached some short continues
  simp only [List.length_append, List.length_cons, List.length_nil] at short
  rcases reached.exists_tracks some with ⟨due, rfl, tracks⟩
  rw [List.cons_append, List.append_assoc]
  apply tracks.passes_cons
  apply takes _ _ _ _ (tracks.opened (by omega)) (.inr (List.cons_ne_nil _ _))
  · rw [List.length_cons]
    omega
  · intro later reachedLater
    rcases reachedLater.exists_tracks (.inr (List.cons_ne_nil _ _)) with
      ⟨last, rfl, tracksLast⟩
    rw [Nat.zero_sub] at tracksLast
    exact tracksLast.passes_cons (continues _ tracksLast.closed)

theorem Takes.tag (isToken : IsToken .tag head) (takes : Takes 1 body) :
    Takes 1 (head ++ body) := by
  rcases takes with ⟨tokens, areTokens, takes⟩
  refine ⟨.tag :: tokens, .cons isToken areTokens, ?_⟩
  intro result left outer more reached some short continues
  rw [List.length_append] at short
  rcases reached.exists_tracks some with ⟨due, rfl, tracks⟩
  exact tracks.passes_cons
    (takes (Option.some due) left outer more reached some (by omega) continues)

theorem IsItem.takes (isItem : IsItem bytes) : Takes 1 bytes := by
  induction isItem with
  | leaf isToken => exact takes_leaf isToken
  | @array items head isHead areItems induction =>
      exact .sized (.array (.sized isHead))
        (fun _ => rfl) (takes_flatten induction areItems)
        (length_le_flatten areItems)
  | @map count items head isHead pairs areItems induction =>
      -- The reader cuts the count of a map at the largest one, which no map that is
      -- short enough reaches.
      have told : items.length ≤ largest →
          min (2 * count) largest = items.length := by omega
      exact .sized (.map (.sized isHead)) told (takes_flatten induction areItems)
        (length_le_flatten areItems)
  | openArray areItems induction =>
      exact .openEnded (.array .openEnded) (takes_flatten induction areItems)
  | openMap pairs areItems induction =>
      exact .openEnded (.map .openEnded) (takes_flatten induction areItems)
  | tag isHead _ induction => exact .tag (.tag isHead) induction

/-- A well-formed item is passed over to its end. -/
theorem IsItem.isPassed (isItem : IsItem bytes) (short : bytes.length ≤ largest) :
    IsPassed bytes := by
  rcases isItem.takes with ⟨tokens, areTokens, takes⟩
  have tracks : Tracks .one 1 [] := .exact Nat.one_pos
  have passes : Due.one.Passes (tokens ++ []) := by
    apply takes (some .one) 1 [] [] (.going tracks) (.inl (Nat.le_refl 1))
    · simp only [List.length_nil]
      omega
    · intro last reached
      cases reached with
      | ended => rfl
      | done => exact .done rfl
      | going tracks =>
          cases tracks with
          | exact some => cases some
          | openEnded fewer last => cases last
          | stacked top => cases top
  rw [List.append_nil] at passes
  exact passes.skipDue?_append areTokens

end ContractCode.Cbor
