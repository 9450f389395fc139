import Esnacc.Cxx.SnaccException

/-! A card of the C++ buffer: octets that are written backwards and read forwards. -/

namespace Esnacc.Cxx

/-- The part of a card that reading works on; its places are counted back from the card's end. -/
structure GetArea where
  eback : Nat
  gptr : Nat
  deriving DecidableEq

/-- A card: free octets, the octets written in front of its end, and what reading works on. -/
structure AsnRvsBuf where
  room : Nat
  octets : List UInt8
  /-- Absent until a read or a seek sets it. -/
  get : Option GetArea
  deriving DecidableEq

/-- A card that a buffer adds when it needs room. -/
def AsnRvsBuf.new : AsnRvsBuf :=
  { room := 4096, octets := [], get := none }

/-- A card made of given octets. -/
def AsnRvsBuf.ofSeg (seg : List UInt8) : AsnRvsBuf :=
  { room := 0, octets := seg, get := none }

/-- The octets that reading has not passed: all of them where it has not begun. -/
@[grind =] def AsnRvsBuf.unread (c : AsnRvsBuf) : List UInt8 :=
  match c.get with
  | none => c.octets
  | some area => c.octets.drop (c.octets.length - area.gptr)

/-- Set the part to read: the whole data, with the given number of octets still to come. -/
def AsnRvsBuf.setg (c : AsnRvsBuf) (gptr : Nat) : AsnRvsBuf :=
  { c with get := some ⟨c.octets.length, gptr⟩ }

/-! ## Reading -/

/-- Begin to read the data, or report their end where they were begun before. -/
def AsnRvsBuf.underflow (c : AsnRvsBuf) : Except Thrown (Option UInt8 × AsnRvsBuf) :=
  if c.get.map GetArea.eback = some c.octets.length then return (none, c)
  else
    match c.octets with
    -- Without data, the octet behind the card is read.
    | [] => throw .fault
    | octet :: _ => return (some octet, c.setg c.octets.length)

/-- The next octet of the part being read, and the card once it is passed. -/
def AsnRvsBuf.buffered (c : AsnRvsBuf) : Option (UInt8 × AsnRvsBuf) :=
  match c.get with
  | none => none
  | some area =>
    (c.octets.drop (c.octets.length - area.gptr)).head?.map fun octet =>
      (octet, { c with get := some { area with gptr := area.gptr - 1 } })

/-- Look at the next octet. -/
def AsnRvsBuf.sgetc (c : AsnRvsBuf) : Except Thrown (Option UInt8 × AsnRvsBuf) :=
  match c.buffered with
  | some (octet, _) => return (some octet, c)
  | none => c.underflow

/-- Read the next octet. -/
def AsnRvsBuf.sbumpc (c : AsnRvsBuf) : Except Thrown (Option UInt8 × AsnRvsBuf) :=
  match c.buffered with
  | some (octet, c) => return (some octet, c)
  | none => do
    match ← c.underflow with
    | (none, c) => return (none, c)
    -- Reading has begun, and its first octet is passed.
    | (some octet, c) => return (some octet, c.setg (c.octets.length - 1))

/-- Read up to a number of octets, one after the other. -/
def AsnRvsBuf.sgetn (c : AsnRvsBuf) : Nat → Except Thrown (List UInt8 × AsnRvsBuf)
  | 0 => return ([], c)
  | n + 1 => do
    match ← c.sbumpc with
    | (none, c) => return ([], c)
    | (some octet, c) =>
      let (octets, c) ← c.sgetn n
      return (octet :: octets, c)

/-! ## Seeking -/

/-- Where the offset of a seek starts. -/
inductive SeekDir where
  | beg
  | cur
  | end
  deriving DecidableEq

/-- The place that a seek goes to, counted from the start of the data. -/
def AsnRvsBuf.seekNext (c : AsnRvsBuf) (off : Int) : SeekDir → Int
  | .beg => off
  | .end => c.octets.length + off
  | .cur =>
    match c.get with
    -- Where no part is set, the offset plays no role.
    | none => 0
    | some area => c.octets.length - area.gptr + off

/-- Seek to a place to read; absent stands for -1, the answer where the place is outside. -/
def AsnRvsBuf.seekoff (c : AsnRvsBuf) (off : Int) (way : SeekDir) : Option Nat × AsnRvsBuf :=
  let next := c.seekNext off way
  if next ≤ c.octets.length ∧ 0 ≤ next then
    (some next.toNat, c.setg (c.octets.length - next.toNat))
  else (none, c)

/-- Seek to a place counted from the start of the data. -/
def AsnRvsBuf.seekpos (c : AsnRvsBuf) (sp : Int) : Option Nat × AsnRvsBuf :=
  c.seekoff sp .beg

/-- The number of octets still to come. -/
def AsnRvsBuf.length (c : AsnRvsBuf) : Nat × AsnRvsBuf :=
  let (currPos, c) := c.seekoff 0 .cur
  let currPos := currPos.getD 0
  let (endPos, c) := c.seekoff 0 .end
  let (_, c) := c.seekpos currPos
  (endPos.getD 0 - currPos, c)

/-! ## Writing -/

/-- Put an octet in front of the data, if there is room. -/
@[grind =] def AsnRvsBuf.sputc (c : AsnRvsBuf) (octet : UInt8) : Bool × AsnRvsBuf :=
  if 0 < c.room then (true, { c with room := c.room - 1, octets := octet :: c.octets })
  else (false, c)

/-- Put the octets of a segment, or the last ones there is room for, in front of the data. -/
def AsnRvsBuf.sputn (c : AsnRvsBuf) (seg : List UInt8) : Nat × AsnRvsBuf :=
  if seg.length ≤ c.room then
    (seg.length, { c with room := c.room - seg.length, octets := seg ++ c.octets })
  else
    (c.room, { c with room := 0, octets := seg.drop (seg.length - c.room) ++ c.octets })

/-! ## What reading does to the octets still to come -/

/-- A card that is only read: what reading works on is the whole data. -/
def AsnRvsBuf.Reading (c : AsnRvsBuf) : Prop :=
  ∀ area, c.get = some area → area.eback = c.octets.length ∧ area.gptr ≤ c.octets.length

/-- A card that has data, or that reading has begun on. -/
def AsnRvsBuf.Ready (c : AsnRvsBuf) : Prop :=
  c.get ≠ none ∨ c.octets ≠ []

instance (c : AsnRvsBuf) : Decidable c.Ready :=
  inferInstanceAs (Decidable (_ ∨ _))

/-- The same data, of which the given octets are still to come. -/
structure AsnRvsBuf.At (c : AsnRvsBuf) (unread : List UInt8) (c' : AsnRvsBuf) : Prop where
  reading : c'.Reading
  begun : c'.get ≠ none
  octets : c'.octets = c.octets
  unread : c'.unread = unread

@[simp] theorem AsnRvsBuf.octets_setg (c : AsnRvsBuf) (gptr : Nat) :
    (c.setg gptr).octets = c.octets := rfl

theorem AsnRvsBuf.setg_at (c : AsnRvsBuf) {gptr : Nat} (within : gptr ≤ c.octets.length) :
    c.At (c.octets.drop (c.octets.length - gptr)) (c.setg gptr) where
  reading := by
    intro area same
    simp only [setg, Option.some.injEq] at same
    subst same
    exact ⟨rfl, within⟩
  begun := by simp [setg]
  octets := rfl
  unread := rfl

theorem AsnRvsBuf.Reading.unread_eq {c : AsnRvsBuf} {area : GetArea} (reading : c.Reading)
    (begun : c.get = some area) : c.unread = c.octets.drop (c.octets.length - area.gptr) ∧
      c.unread.length = area.gptr := by
  have within := (reading area begun).2
  have same : c.unread = c.octets.drop (c.octets.length - area.gptr) := by
    rw [unread, begun]
  refine ⟨same, ?_⟩
  rw [same, List.length_drop]
  omega

theorem AsnRvsBuf.Reading.length_unread_le {c : AsnRvsBuf} (reading : c.Reading) :
    c.unread.length ≤ c.octets.length := by
  cases begun : c.get with
  | none => simp [unread, begun]
  | some area =>
    rw [(reading.unread_eq begun).2]
    exact (reading area begun).2

/-- Octets are still to come in the part being read while its end is not reached. -/
theorem AsnRvsBuf.buffered_cons {c : AsnRvsBuf} {area : GetArea} {octet : UInt8}
    {rest : List UInt8} (reading : c.Reading) (begun : c.get = some area)
    (unread : c.unread = octet :: rest) :
    c.buffered = some (octet, c.setg rest.length) := by
  obtain ⟨start, within⟩ := reading area begun
  obtain ⟨drop, size⟩ := reading.unread_eq begun
  rw [unread, List.length_cons] at size
  rw [unread] at drop
  rw [buffered, begun]
  dsimp only
  rw [← drop, setg, ← start, ← size]
  rfl

theorem AsnRvsBuf.buffered_nil {c : AsnRvsBuf} (reading : c.Reading) (unread : c.unread = []) :
    c.buffered = none := by
  rw [buffered]
  cases begun : c.get with
  | none => rfl
  | some area =>
    rw [(reading.unread_eq begun).1] at unread
    dsimp only
    rw [unread]
    rfl

theorem AsnRvsBuf.underflow_nil {c : AsnRvsBuf} (reading : c.Reading) (begun : c.get ≠ none) :
    c.underflow = .ok (none, c) := by
  obtain ⟨area, begun⟩ := Option.ne_none_iff_exists'.mp begun
  have start := (reading area begun).1
  rw [underflow, begun, Option.map_some, start, if_pos rfl]
  rfl

theorem AsnRvsBuf.underflow_cons {c : AsnRvsBuf} {octet : UInt8} {rest : List UInt8}
    (fresh : c.get = none) (octets : c.octets = octet :: rest) :
    c.underflow = .ok (some octet, c.setg c.octets.length) := by
  rw [underflow, fresh, Option.map_none, if_neg (by simp)]
  rw [octets]
  rfl

/-- Where the data are not used up, the octets still to come are its last ones. -/
theorem AsnRvsBuf.Reading.setg_at {c : AsnRvsBuf} {f rest : List UInt8} (reading : c.Reading)
    (unread : c.unread = f ++ rest) : c.At rest (c.setg rest.length) := by
  have size : rest.length ≤ c.octets.length ∧
      c.octets.drop (c.octets.length - rest.length) = rest := by
    cases begun : c.get with
    | none =>
      have all : c.octets = f ++ rest := by
        rw [← unread, AsnRvsBuf.unread, begun]
      simp [all]
    | some area =>
      obtain ⟨drop, size⟩ := reading.unread_eq begun
      have within := (reading area begun).2
      rw [unread, List.length_append] at size
      rw [unread] at drop
      have skip := congrArg (List.drop f.length) drop
      rw [List.drop_left, List.drop_drop] at skip
      have place : c.octets.length - rest.length = c.octets.length - area.gptr + f.length := by
        omega
      rw [place]
      exact ⟨by omega, skip.symm⟩
  have at_ := c.setg_at size.1
  rwa [size.2] at at_

/-- Reading an octet passes it. -/
theorem AsnRvsBuf.sbumpc_cons {c : AsnRvsBuf} {octet : UInt8} {rest : List UInt8}
    (reading : c.Reading) (unread : c.unread = octet :: rest) :
    ∃ c', c.sbumpc = .ok (some octet, c') ∧ c.At rest c' := by
  refine ⟨c.setg rest.length, ?_, reading.setg_at (f := [octet]) unread⟩
  cases begun : c.get with
  | none =>
    have octets : c.octets = octet :: rest := by
      rw [← unread, AsnRvsBuf.unread, begun]
    have none : c.buffered = none := by
      rw [buffered, begun]
    rw [sbumpc, none]
    dsimp only
    rw [underflow_cons begun octets]
    dsimp only [Bind.bind, Except.bind]
    rw [octets_setg, octets]
    rfl
  | some area =>
    rw [sbumpc, buffered_cons reading begun unread]
    rfl

theorem AsnRvsBuf.sbumpc_nil {c : AsnRvsBuf} (reading : c.Reading) (begun : c.get ≠ none)
    (unread : c.unread = []) : c.sbumpc = .ok (none, c) := by
  rw [sbumpc, buffered_nil reading unread]
  dsimp only
  rw [underflow_nil reading begun]
  rfl

/-- Looking at an octet leaves it to be read. -/
theorem AsnRvsBuf.sgetc_cons {c : AsnRvsBuf} {octet : UInt8} {rest : List UInt8}
    (reading : c.Reading) (unread : c.unread = octet :: rest) :
    ∃ c', c.sgetc = .ok (some octet, c') ∧ c.At (octet :: rest) c' := by
  cases begun : c.get with
  | none =>
    have octets : c.octets = octet :: rest := by
      rw [← unread, AsnRvsBuf.unread, begun]
    have none : c.buffered = none := by
      rw [buffered, begun]
    refine ⟨c.setg (octet :: rest).length, ?_, reading.setg_at (f := []) unread⟩
    rw [sgetc, none]
    dsimp only
    rw [underflow_cons begun octets, octets]
  | some area =>
    refine ⟨c, ?_, ⟨reading, by simp [begun], rfl, unread⟩⟩
    rw [sgetc, buffered_cons reading begun unread]
    rfl

theorem AsnRvsBuf.sgetc_nil {c : AsnRvsBuf} (reading : c.Reading) (begun : c.get ≠ none)
    (unread : c.unread = []) : c.sgetc = .ok (none, c) := by
  rw [sgetc, buffered_nil reading unread]
  dsimp only
  rw [underflow_nil reading begun]

/-- A card that reading has begun on reads up to a number of the octets still to come. -/
theorem AsnRvsBuf.sgetn_begun {c : AsnRvsBuf} (reading : c.Reading) (begun : c.get ≠ none)
    (n : Nat) : ∃ c', c.sgetn n = .ok (c.unread.take n, c') ∧ c.At (c.unread.drop n) c' := by
  induction n generalizing c with
  | zero => exact ⟨c, rfl, reading, begun, rfl, rfl⟩
  | succ n ih =>
    cases unread : c.unread with
    | nil =>
      refine ⟨c, ?_, reading, begun, rfl, unread⟩
      rw [sgetn, sbumpc_nil reading begun unread]
      rfl
    | cons octet rest =>
      obtain ⟨mid, ran, at_⟩ := sbumpc_cons reading unread
      obtain ⟨c', later, last⟩ := ih at_.reading at_.begun
      rw [at_.unread] at later last
      refine ⟨c', ?_, last.reading, last.begun, last.octets.trans at_.octets, last.unread⟩
      rw [sgetn, ran]
      dsimp only [Bind.bind, Except.bind]
      rw [later]
      rfl

/-- A card with data, or that reading has begun on, reads up to a number of octets. -/
theorem AsnRvsBuf.sgetn_ready {c : AsnRvsBuf} (reading : c.Reading) (ready : c.Ready) {n : Nat}
    (least : 0 < n) :
    ∃ c', c.sgetn n = .ok (c.unread.take n, c') ∧ c.At (c.unread.drop n) c' := by
  rcases ready with begun | data
  · exact sgetn_begun reading begun n
  · cases unread : c.unread with
    | nil =>
      have begun : c.get ≠ none := by
        intro fresh
        apply data
        rw [← unread, AsnRvsBuf.unread, fresh]
      have all := sgetn_begun reading begun n
      rwa [unread] at all
    | cons octet rest =>
      obtain ⟨m, rfl⟩ := Nat.exists_eq_succ_of_ne_zero (Nat.ne_of_gt least)
      obtain ⟨mid, ran, at_⟩ := sbumpc_cons reading unread
      obtain ⟨c', later, last⟩ := sgetn_begun at_.reading at_.begun m
      rw [at_.unread] at later last
      refine ⟨c', ?_, last.reading, last.begun, last.octets.trans at_.octets, last.unread⟩
      rw [sgetn, ran]
      dsimp only [Bind.bind, Except.bind]
      rw [later]
      rfl

theorem AsnRvsBuf.seekoff_of_next {c : AsnRvsBuf} {off : Int} {way : SeekDir} {p : Nat}
    (next : c.seekNext off way = p) (within : p ≤ c.octets.length) :
    c.seekoff off way = (some p, c.setg (c.octets.length - p)) := by
  rw [seekoff, next]
  simp [within]

/-- A seek from where reading stands passes as many octets. -/
theorem AsnRvsBuf.seekoff_cur {c : AsnRvsBuf} (reading : c.Reading) {n : Nat}
    (within : n ≤ c.unread.length) (meant : c.get ≠ none ∨ n = 0) :
    c.seekoff n .cur = (some (c.octets.length - (c.unread.length - n)),
      c.setg (c.unread.length - n)) := by
  have place : c.seekNext n .cur = ((c.octets.length - (c.unread.length - n) : Nat) : Int) ∧
      c.unread.length ≤ c.octets.length := by
    rw [seekNext]
    cases begun : c.get with
    | none =>
      have zero : n = 0 := meant.resolve_left fun some => some begun
      simp [unread, begun, zero]
    | some area =>
      have size := (reading.unread_eq begun).2
      have most := (reading area begun).2
      dsimp only
      omega
  rw [seekoff_of_next place.1 (by omega)]
  congr 2
  omega

theorem AsnRvsBuf.seekoff_end (c : AsnRvsBuf) :
    c.seekoff 0 .end = (some c.octets.length, c.setg 0) := by
  rw [seekoff_of_next (p := c.octets.length) (by simp [seekNext]) (Nat.le_refl _), Nat.sub_self]

theorem AsnRvsBuf.seekpos_natCast (c : AsnRvsBuf) {pos : Nat} (within : pos ≤ c.octets.length) :
    c.seekpos pos = (some pos, c.setg (c.octets.length - pos)) :=
  seekoff_of_next rfl within

theorem AsnRvsBuf.seekpos_zero (c : AsnRvsBuf) : (c.seekpos 0).2 = c.setg c.octets.length := by
  have place := c.seekpos_natCast (Nat.zero_le _)
  rw [Int.natCast_zero, Nat.sub_zero] at place
  rw [place]

@[simp] theorem AsnRvsBuf.setg_setg (c : AsnRvsBuf) (m n : Nat) :
    (c.setg m).setg n = c.setg n := rfl

/-- The length of a card is the number of octets still to come, and reading has begun on it. -/
theorem AsnRvsBuf.length_eq {c : AsnRvsBuf} (reading : c.Reading) :
    ∃ c', c.length = (c.unread.length, c') ∧ c.At c.unread c' := by
  have within := reading.length_unread_le
  refine ⟨c.setg c.unread.length, ?_, reading.setg_at (f := []) rfl⟩
  have current := seekoff_cur reading (n := 0) (Nat.zero_le _) (.inr rfl)
  simp only [Int.natCast_zero, Nat.sub_zero] at current
  rw [length, current]
  dsimp only
  rw [seekoff_end]
  dsimp only [Option.getD_some]
  rw [setg_setg, seekpos_natCast _ (by simp), setg_setg]
  simp only [octets_setg]
  rw [show c.octets.length - (c.octets.length - c.unread.length) = c.unread.length by omega]

end Esnacc.Cxx
