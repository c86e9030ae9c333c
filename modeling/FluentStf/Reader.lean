import FluentStf.Primitives
import FluentStf.Runs

/-! Readers that move over a byte slice, and the formats they accept.

A reader either fails with a message or returns a value and the cursor behind the bytes it
took. `Reads r must may` says that `r` takes everything `must` allows and nothing that `may`
forbids; most readers have one format for both. -/
namespace FluentStf

/-- A place in a slice: how many bytes lie before it, and those that are left. -/
structure Cursor where
  pos : Nat
  rest : Bytes
deriving DecidableEq

namespace Cursor

def peek (c : Cursor) : Option UInt8 := c.rest.head?

/-- The cursor behind the next byte. -/
def next (c : Cursor) : Cursor := ⟨c.pos + 1, c.rest.tail⟩

/-- The length of the slice is a `usize`. -/
def Fits (c : Cursor) : Prop := c.pos + c.rest.length < 2 ^ 64

/-- The second cursor lies behind the given bytes. -/
def Past (c : Cursor) (taken : Bytes) (d : Cursor) : Prop :=
  c.rest = taken ++ d.rest ∧ d.pos = c.pos + taken.length

variable {c d e : Cursor} {a b : Bytes}

theorem Past.refl (c : Cursor) : c.Past [] c := ⟨rfl, rfl⟩

theorem Past.trans (h : c.Past a d) (h' : d.Past b e) : c.Past (a ++ b) e := by
  refine ⟨?_, ?_⟩
  · rw [h.1, h'.1, List.append_assoc]
  · rw [h'.2, h.2, List.length_append, Nat.add_assoc]

theorem Past.split (h : c.Past (a ++ b) e) :
    c.Past a ⟨c.pos + a.length, b ++ e.rest⟩ ∧
      Past ⟨c.pos + a.length, b ++ e.rest⟩ b e := by
  refine ⟨⟨?_, rfl⟩, rfl, ?_⟩
  · rw [h.1, List.append_assoc]
  · rw [h.2, List.length_append, Nat.add_assoc]

theorem Past.fits (h : c.Past a d) (hc : c.Fits) : d.Fits := by
  have hlength := congrArg List.length h.1
  rw [List.length_append] at hlength
  unfold Fits at hc ⊢
  rw [h.2]
  omega

theorem Past.eq_of_nil (h : c.Past [] d) : d = c := by
  obtain ⟨hrest, hpos⟩ := h
  cases c
  cases d
  simp_all

theorem Past.next {byte : UInt8} (h : c.peek = some byte) : c.Past [byte] c.next := by
  obtain ⟨rest, hrest⟩ := List.head?_eq_some_iff.mp h
  exact ⟨by rw [hrest, Cursor.next, hrest]; rfl, rfl⟩

theorem Past.eq_next {byte : UInt8} (h : c.Past [byte] d) : c.peek = some byte ∧ d = c.next := by
  obtain ⟨pos, rest⟩ := c
  obtain ⟨pos', rest'⟩ := d
  obtain ⟨hrest, hpos⟩ := h
  obtain rfl : rest = byte :: rest' := hrest
  obtain rfl : pos' = pos + 1 := hpos
  exact ⟨rfl, rfl⟩

theorem Past.peek_cons {byte : UInt8} (h : c.Past (byte :: a) d) : c.peek = some byte := by
  rw [peek, h.1]
  rfl

theorem Past.length_le (h : c.Past a d) : a.length ≤ c.rest.length := by
  rw [h.1, List.length_append]
  omega

end Cursor

abbrev Reader (α : Type) := StateT Cursor (Except String) α

/-- The byte strings that stand for a value. -/
abbrev Format (α : Type) := α → Bytes → Prop

/-- A reader accepts all that it must, and nothing but what it may. -/
structure Reads {α : Type} (r : Reader α) (must may : Format α) : Prop where
  sound : ∀ {c x d}, r c = .ok (x, d) → ∃ taken, may x taken ∧ c.Past taken d
  complete : ∀ {c x d taken}, c.Fits → must x taken → c.Past taken d → r c = .ok (x, d)

/-- The reader takes exactly the bytes of one format. -/
abbrev Recognises {α : Type} (r : Reader α) (F : Format α) : Prop := Reads r F F

/-- A value of the first format, then one of the format that it selects. -/
def Format.seq {α β : Type} (F : Format α) (G : α → Format β) : Format β :=
  fun y bytes => ∃ x a b, bytes = a ++ b ∧ F x a ∧ G x y b

namespace Reader

variable {α β σ : Type}

def readU8 (eof : String) : Reader UInt8 := fun c =>
  match c.peek with
  | none => .error eof
  | some byte => .ok (byte, c.next)

def readBytes (overflow eof : String) (n : Nat) : Reader Bytes := fun c =>
  if 2 ^ 64 ≤ c.pos + n then .error overflow
  else if c.rest.length < n then .error eof
  else .ok (c.rest.take n, ⟨c.pos + n, c.rest.drop n⟩)

def check (p : Prop) [Decidable p] (message : String) : Reader Unit := fun c =>
  if p then .ok ((), c) else .error message

def expectSome (message : String) : Option α → Reader α
  | none => fun _ => .error message
  | some x => fun c => .ok (x, c)

/-- A reader run on a slice of its own; what it leaves of that slice is not looked at. -/
def within (r : Reader α) (slice : Bytes) : Reader α := fun c => do
  let (x, _) ← r ⟨0, slice⟩
  return (x, c)

/-- The body is run a fixed number of times. -/
def times (body : σ → Reader σ) : Nat → σ → Reader σ
  | 0, s => pure s
  | n + 1, s => body s >>= times body n

/-- The body is run until the next byte is `stop`, at most `fuel` times. -/
def untilByteFuel (stop : UInt8) (eof : String) (body : σ → Reader σ) : Nat → σ → Reader σ
  | 0, _ => fun _ => .error eof
  | fuel + 1, s => fun c =>
      if c.peek = some stop then .ok (s, c.next)
      else (body s >>= untilByteFuel stop eof body fuel) c

/-- Every run of the body takes a byte, so that as many runs as there are bytes are enough. -/
def untilByte (stop : UInt8) (eof : String) (body : σ → Reader σ) (s : σ) : Reader σ := fun c =>
  untilByteFuel stop eof body (c.rest.length + 1) s c

end Reader

namespace Reads

variable {α β σ : Type} {r : Reader α} {k : α → Reader β} {F F' : Format α}

theorem mono {must may : Format α} (h : Reads r F F')
    (hmust : ∀ {x bytes}, must x bytes → F x bytes)
    (hmay : ∀ {x bytes}, F' x bytes → may x bytes) : Reads r must may where
  sound := fun hr => by
    obtain ⟨taken, hF, hpast⟩ := h.sound hr
    exact ⟨taken, hmay hF, hpast⟩
  complete := fun hfits hx hpast => h.complete hfits (hmust hx) hpast

theorem pure (x : α) : Recognises (pure x : Reader α) (fun y bytes => y = x ∧ bytes = []) where
  sound := fun {c y d} hr => by
    cases hr
    exact ⟨[], ⟨rfl, rfl⟩, Cursor.Past.refl _⟩
  complete := by
    rintro c y d taken - ⟨rfl, rfl⟩ hpast
    rw [hpast.eq_of_nil]
    rfl

theorem bind {G G' : α → Format β} (h : Reads r F F') (hk : ∀ x, Reads (k x) (G x) (G' x)) :
    Reads (r >>= k) (F.seq G) (F'.seq G') where
  sound := fun {c y e} hr => by
    obtain ⟨⟨x, d⟩, hx, hy⟩ := bind_eq_ok.mp hr
    obtain ⟨a, hF, hpast⟩ := h.sound hx
    obtain ⟨b, hG, hpast'⟩ := (hk x).sound hy
    exact ⟨a ++ b, ⟨x, a, b, rfl, hF, hG⟩, hpast.trans hpast'⟩
  complete := by
    rintro c y e _ hfits ⟨x, a, b, rfl, hF, hG⟩ hpast
    obtain ⟨hfirst, hsecond⟩ := hpast.split
    have hx := h.complete hfits hF hfirst
    exact bind_eq_ok.mpr ⟨_, hx, (hk x).complete (hfirst.fits hfits) hG hsecond⟩

theorem map {f : α → β} (h : Reads r F F') :
    Reads (do let x ← r; return f x) (fun y bytes => ∃ x, y = f x ∧ F x bytes)
      (fun y bytes => ∃ x, y = f x ∧ F' x bytes) := by
  refine (h.bind fun x => Reads.pure (f x)).mono ?_ ?_
  · rintro y bytes ⟨x, rfl, hF⟩
    exact ⟨x, bytes, [], (List.append_nil _).symm, hF, rfl, rfl⟩
  · rintro y bytes ⟨x, a, b, rfl, hF, rfl, rfl⟩
    exact ⟨x, rfl, by rwa [List.append_nil]⟩

theorem error (message : String) :
    Recognises (fun _ => .error message : Reader α) (fun _ _ => False) where
  sound := fun hr => by cases hr
  complete := fun _ hx => hx.elim

theorem check_bind {p : Prop} [Decidable p] {message : String} (h : p → Reads r F F') :
    Reads (Reader.check p message >>= fun _ => r) (fun x bytes => p ∧ F x bytes)
      (fun x bytes => p ∧ F' x bytes) where
  sound := fun {c x d} hr => by
    obtain ⟨⟨⟨⟩, c'⟩, hp, hr⟩ := bind_eq_ok.mp hr
    unfold Reader.check at hp
    split at hp
    · next hp' =>
        cases hp
        obtain ⟨taken, hF, hpast⟩ := (h hp').sound hr
        exact ⟨taken, ⟨hp', hF⟩, hpast⟩
    · cases hp
  complete := by
    rintro c x d taken hfits ⟨hp, hF⟩ hpast
    have hcheck : Reader.check p message c = .ok ((), c) := if_pos hp
    exact bind_eq_ok.mpr ⟨_, hcheck, (h hp).complete hfits hF hpast⟩

theorem check {p : Prop} [Decidable p] {message : String} :
    Recognises (Reader.check p message) (fun _ bytes => p ∧ bytes = []) where
  sound := fun {c x d} hr => by
    unfold Reader.check at hr
    split at hr
    · next hp =>
        cases hr
        exact ⟨[], ⟨hp, rfl⟩, Cursor.Past.refl _⟩
    · cases hr
  complete := by
    rintro c x d taken - ⟨hp, rfl⟩ hpast
    rw [hpast.eq_of_nil]
    exact if_pos hp

theorem expectSome {message : String} (o : Option α) :
    Recognises (Reader.expectSome message o) (fun x bytes => o = some x ∧ bytes = []) := by
  cases o with
  | none => exact (Reads.error message).mono (by rintro _ _ ⟨⟨⟩, _⟩) (fun h => h.elim)
  | some x =>
      refine (Reads.pure x).mono ?_ ?_
      · rintro y bytes ⟨h, rfl⟩
        exact ⟨(Option.some.inj h).symm, rfl⟩
      · rintro y bytes ⟨rfl, rfl⟩
        exact ⟨rfl, rfl⟩

theorem readU8 (eof : String) :
    Recognises (Reader.readU8 eof) (fun byte bytes => bytes = [byte]) where
  sound := fun {c byte d} hr => by
    unfold Reader.readU8 at hr
    split at hr
    · cases hr
    · next hpeek =>
        cases hr
        exact ⟨_, rfl, Cursor.Past.next hpeek⟩
  complete := by
    rintro c byte d taken - rfl hpast
    obtain ⟨hpeek, rfl⟩ := hpast.eq_next
    unfold Reader.readU8
    rw [hpeek]

theorem readBytes (overflow eof : String) (n : Nat) :
    Recognises (Reader.readBytes overflow eof n) (fun x bytes => bytes = x ∧ x.length = n) where
  sound := fun {c x d} hr => by
    unfold Reader.readBytes at hr
    split at hr
    · cases hr
    · split at hr
      · cases hr
      · next hlength =>
          cases hr
          have htake : (c.rest.take n).length = n := by
            rw [List.length_take]
            omega
          refine ⟨_, ⟨rfl, htake⟩, (List.take_append_drop n c.rest).symm, ?_⟩
          rw [htake]
  complete := by
    rintro ⟨pos, rest⟩ x ⟨pos', rest'⟩ taken hfits ⟨rfl, rfl⟩ ⟨hrest, hpos⟩
    obtain rfl : rest = taken ++ rest' := hrest
    obtain rfl : pos' = pos + taken.length := hpos
    unfold Cursor.Fits at hfits
    simp only [List.length_append] at hfits
    unfold Reader.readBytes
    rw [if_neg (by simp only; omega), if_neg (by simp)]
    simp

/-- A reader that starts on a slice of its own takes the front of it. -/
theorem run_sound {slice : Bytes} {x : α} {d : Cursor} (h : Reads r F F')
    (hr : r ⟨0, slice⟩ = .ok (x, d)) : ∃ taken, slice = taken ++ d.rest ∧ F' x taken := by
  obtain ⟨taken, hF, hpast⟩ := h.sound hr
  exact ⟨taken, hpast.1, hF⟩

theorem run_complete {a b : Bytes} {x : α} (h : Reads r F F') (hF : F x a)
    (hlength : (a ++ b).length < 2 ^ 64) : r ⟨0, a ++ b⟩ = .ok (x, ⟨a.length, b⟩) := by
  have hfits : Cursor.Fits ⟨0, a ++ b⟩ := by
    unfold Cursor.Fits
    rwa [Nat.zero_add]
  exact h.complete hfits hF ⟨rfl, (Nat.zero_add _).symm⟩

theorem within (h : Reads r F F') (slice : Bytes) : Reads (Reader.within r slice)
    (fun x bytes => bytes = [] ∧ slice.length < 2 ^ 64 ∧ ∃ a b, slice = a ++ b ∧ F x a)
    (fun x bytes => bytes = [] ∧ ∃ a b, slice = a ++ b ∧ F' x a) where
  sound := fun {c x d} hr => by
    obtain ⟨⟨x', c'⟩, hx, hpure⟩ := bind_eq_ok.mp hr
    cases hpure
    obtain ⟨taken, hslice, hF⟩ := h.run_sound hx
    exact ⟨[], ⟨rfl, taken, c'.rest, hslice, hF⟩, Cursor.Past.refl c⟩
  complete := by
    rintro c x d _ - ⟨rfl, hlength, a, b, rfl, hF⟩ hpast
    rw [hpast.eq_of_nil]
    exact bind_eq_ok.mpr ⟨_, h.run_complete hF hlength, rfl⟩

end Reads

section Loops

variable {σ : Type} {body : σ → Reader σ} {F F' : σ → Format σ} {stop : UInt8} {eof : String}

/-- The parts that the runs of a loop's body take one after the other. -/
abbrev Parts (F : σ → Format σ) : σ → List Bytes → σ → Prop := Run fun s part t => F s t part

def Format.times (F : σ → Format σ) (n : Nat) (s : σ) : Format σ := fun t bytes =>
  ∃ parts, parts.length = n ∧ bytes = parts.flatten ∧ Parts F s parts t

def Format.untilByte (F : σ → Format σ) (stop : UInt8) (s : σ) : Format σ := fun t bytes =>
  ∃ parts, bytes = parts.flatten ++ [stop] ∧ Parts F s parts t

theorem Reads.times (h : ∀ s, Reads (body s) (F s) (F' s)) (n : Nat) (s : σ) :
    Reads (Reader.times body n s) (Format.times F n s) (Format.times F' n s) := by
  induction n generalizing s with
  | zero =>
      refine (Reads.pure s).mono ?_ ?_
      · rintro t bytes ⟨parts, hlength, rfl, hrun⟩
        obtain rfl := List.length_eq_zero_iff.mp hlength
        cases hrun
        exact ⟨rfl, rfl⟩
      · rintro t bytes ⟨rfl, rfl⟩
        exact ⟨[], rfl, rfl, .nil _⟩
  | succ n ih =>
      refine ((h s).bind ih).mono ?_ ?_
      · rintro t bytes ⟨parts, hlength, rfl, hrun⟩
        cases hrun with
        | nil => cases hlength
        | cons head tail =>
            exact ⟨_, _, _, rfl, head, _, Nat.succ_inj.mp hlength, rfl, tail⟩
      · rintro t bytes ⟨u, a, b, rfl, hhead, parts, rfl, rfl, htail⟩
        exact ⟨a :: parts, rfl, rfl, .cons hhead htail⟩

/-- What the body takes is never mistaken for the end of the loop. -/
def Delimited (F : σ → Format σ) (stop : UInt8) : Prop :=
  ∀ {s t bytes}, F s t bytes → ∃ byte rest, bytes = byte :: rest ∧ byte ≠ stop

theorem Reader.untilByteFuel_sound (h : ∀ s, Reads (body s) (F s) (F' s)) {fuel : Nat} {s t : σ}
    {c d : Cursor} (hr : Reader.untilByteFuel stop eof body fuel s c = .ok (t, d)) :
    ∃ taken, Format.untilByte F' stop s t taken ∧ c.Past taken d := by
  induction fuel generalizing s c with
  | zero => cases hr
  | succ fuel ih =>
      unfold Reader.untilByteFuel at hr
      split at hr
      · next hstop =>
          cases hr
          exact ⟨[stop], ⟨[], rfl, .nil _⟩, Cursor.Past.next hstop⟩
      · obtain ⟨⟨u, c'⟩, hbody, htail⟩ := bind_eq_ok.mp hr
        obtain ⟨a, hF, hpast⟩ := (h s).sound hbody
        obtain ⟨b, ⟨parts, rfl, hparts⟩, hpast'⟩ := ih htail
        refine ⟨_, ⟨a :: parts, ?_, .cons hF hparts⟩, hpast.trans hpast'⟩
        rw [List.flatten_cons, List.append_assoc]

theorem Reader.untilByteFuel_complete (h : ∀ s, Reads (body s) (F s) (F' s))
    (hdelimited : Delimited F stop) {fuel : Nat} {s t : σ} {parts : List Bytes} {c d : Cursor}
    (hfits : c.Fits) (hparts : Parts F s parts t) (hpast : c.Past (parts.flatten ++ [stop]) d)
    (hfuel : parts.length < fuel) :
    Reader.untilByteFuel stop eof body fuel s c = .ok (t, d) := by
  induction hparts generalizing fuel c with
  | nil s =>
      obtain ⟨fuel, rfl⟩ := Nat.exists_eq_add_of_lt hfuel
      obtain ⟨hpeek, rfl⟩ := Cursor.Past.eq_next hpast
      exact if_pos hpeek
  | @cons s u t part parts head tail ih =>
      cases fuel with
      | zero => cases hfuel
      | succ fuel =>
          rw [List.flatten_cons, List.append_assoc] at hpast
          obtain ⟨hfirst, hsecond⟩ := hpast.split
          have hbody := (h s).complete hfits head hfirst
          have htail := ih (hfirst.fits hfits) hsecond (Nat.lt_of_succ_lt_succ hfuel)
          obtain ⟨byte, rest, rfl, hne⟩ := hdelimited head
          have hpeek : c.peek ≠ some stop := by
            rw [hfirst.peek_cons]
            exact fun heq => hne (Option.some.inj heq)
          unfold Reader.untilByteFuel
          rw [if_neg hpeek]
          exact bind_eq_ok.mpr ⟨_, hbody, htail⟩

theorem length_le_of_delimited (hdelimited : Delimited F stop) {s t : σ} {parts : List Bytes}
    (hparts : Parts F s parts t) : parts.length ≤ parts.flatten.length := by
  induction hparts with
  | nil => rfl
  | cons head _ ih =>
      obtain ⟨byte, rest, rfl, -⟩ := hdelimited head
      simp only [List.length_cons, List.flatten_cons, List.length_append]
      omega

theorem Reads.untilByte (h : ∀ s, Reads (body s) (F s) (F' s)) (hdelimited : Delimited F stop)
    (s : σ) : Reads (Reader.untilByte stop eof body s) (Format.untilByte F stop s)
      (Format.untilByte F' stop s) where
  sound := Reader.untilByteFuel_sound h
  complete := by
    rintro c t d _ hfits ⟨parts, rfl, hparts⟩ hpast
    have hcount := length_le_of_delimited hdelimited hparts
    have hlength := hpast.length_le
    rw [List.length_append] at hlength
    exact Reader.untilByteFuel_complete h hdelimited hfits hparts hpast (by omega)

end Loops

end FluentStf
