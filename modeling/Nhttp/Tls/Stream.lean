import Nhttp.Lib.Octets
import Nhttp.Lib.Writing

/-!
# TLS over a stream

* `Engine`: OpenSSL as `tls_stream` uses it, an engine between two memory BIOs.
* `TlsStream.flushWbio`, `feedRbioFromNetwork`, `write`: the coroutines, with a bound on the turns of their
  loops.
* **`TlsStream.flushWbio_ends_iff`**: flushing ends exactly when the wire does not stall.
-/

namespace Nhttp.Tls

open Octets Writing

/-- A wire that is also read; both directions may throw. An empty read means the end. -/
class Duplex (σ : Type) extends Writable σ UInt8 where
  read : σ → ℕ → Option Bytes × σ

/-- What a call of `SSL_write` comes to, as `SSL_get_error` tells it. -/
inductive SslResult where
  | done (rc : ℕ)
  | wantRead
  | wantWrite
  /-- `SSL_ERROR_ZERO_RETURN`, `SSL_ERROR_SYSCALL` or `SSL_ERROR_SSL`. -/
  | failed
deriving DecidableEq, Repr

/-- `sslWrite` also returns what it puts into the write BIO. -/
class Engine (ε : Type) where
  sslWrite : ε → Bytes → SslResult × Bytes × ε
  bioWrite : ε → Bytes → ε

structure TlsStream (ε σ : Type) where
  ssl : ε
  wbio : Bytes
  inner : σ

namespace TlsStream

variable {ε σ : Type} [Engine ε] [Duplex σ]

/-- `flush_wbio`: `BIO_read` takes up to 4096 octets, all of which are then written. -/
def flushWbio : ℕ → TlsStream ε σ → Option (Bool × TlsStream ε σ)
  | 0, _ => none
  | fuel + 1, t =>
    let buf := t.wbio.take 4096
    -- an empty memory BIO reports -1
    if buf = [] then some (true, t)
    else
      match writeLoop buf (fuel + 1) 0 t.inner with
      | none => none
      | some (false, inner) => some (false, { t with wbio := t.wbio.drop 4096, inner := inner })
      | some (true, inner) => flushWbio fuel { t with wbio := t.wbio.drop 4096, inner := inner }

/-- `feed_rbio_from_network`; `none` if the read throws. -/
def feedRbioFromNetwork (t : TlsStream ε σ) : Option Bool × TlsStream ε σ :=
  match Duplex.read t.inner 4096 with
  | (none, inner) => (none, { t with inner := inner })
  | (some buf, inner) =>
    if buf = [] then (some false, { t with inner := inner })
    else (some true, { t with ssl := Engine.bioWrite t.ssl buf, inner := inner })

/-- `write`; a result `none` inside means that it throws. -/
def write : ℕ → TlsStream ε σ → Bytes → Option (Option ℕ × TlsStream ε σ)
  | 0, _, _ => none
  | fuel + 1, t, buf =>
    let (rc, out, ssl) := Engine.sslWrite t.ssl buf
    match flushWbio (fuel + 1) { t with ssl := ssl, wbio := t.wbio ++ out } with
    | none => none
    | some (false, t) => some (none, t)
    | some (true, t) =>
      match rc with
      | .done n => some (some n, t)
      | .wantRead =>
        match t.feedRbioFromNetwork with
        | (none, t) => some (none, t)
        | (some false, t) => some (some 0, t)
        | (some true, t) => write fuel t buf
      | .wantWrite => write fuel t buf
      | .failed => some (some 0, t)

/-! ## Flushing -/

/-- What the calls of `BIO_read` in `flush_wbio` hand out. -/
def bioPieces (wbio : Bytes) : List Bytes :=
  if wbio = [] then [] else wbio.take 4096 :: bioPieces (wbio.drop 4096)
termination_by wbio.length
decreasing_by
  rw [List.length_drop]
  have := List.length_pos_iff.mpr (by assumption : ¬wbio = [])
  omega

omit [Engine ε] in
theorem flushWbio_succ (fuel : ℕ) (t : TlsStream ε σ) :
    flushWbio (fuel + 1) t =
      if t.wbio = [] then some (true, t)
      else
        match writeLoop (t.wbio.take 4096) (fuel + 1) 0 t.inner with
        | none => none
        | some (false, inner) => some (false, { t with wbio := t.wbio.drop 4096, inner := inner })
        | some (true, inner) => flushWbio fuel { t with wbio := t.wbio.drop 4096, inner := inner } := by
  rw [flushWbio]
  have hnil : t.wbio.take 4096 = [] ↔ t.wbio = [] := by simp
  simp only [hnil]

/-- The stream after one `BIO_read` and the writes of its piece. -/
def afterPiece (t : TlsStream ε σ) (inner : σ) : TlsStream ε σ :=
  { t with wbio := t.wbio.drop 4096, inner := inner }

omit [Engine ε] in
theorem flushWbio_mono {fuel fuel' : ℕ} (hle : fuel ≤ fuel') {t : TlsStream ε σ} {r : Bool × TlsStream ε σ}
    (h : flushWbio fuel t = some r) : flushWbio fuel' t = some r := by
  induction fuel generalizing fuel' t with
  | zero => cases h
  | succ fuel ih =>
    obtain ⟨fuel', rfl⟩ : ∃ m, fuel' = m + 1 := ⟨fuel' - 1, by omega⟩
    rw [flushWbio_succ] at h ⊢
    split_ifs at h ⊢
    · exact h
    · rcases hl : writeLoop (t.wbio.take 4096) (fuel + 1) 0 t.inner with _ | ⟨_ | _, inner⟩ <;> rw [hl] at h
      · cases h
      · rw [writeLoop_mono hle hl]
        exact h
      · rw [writeLoop_mono hle hl]
        exact ih (Nat.le_of_succ_le_succ hle) h

omit [Engine ε] in
theorem flushWbio_ends_cons {t : TlsStream ε σ} (hne : t.wbio ≠ []) : Ends (flushWbio · t) ↔
    ∃ fuel r, writeLoop (t.wbio.take 4096) fuel 0 t.inner = some r ∧
      (r.1 = true → Ends (flushWbio · (t.afterPiece r.2))) := by
  constructor
  · rintro ⟨fuel, hf⟩
    cases fuel with
    | zero => cases hf
    | succ fuel =>
      dsimp only at hf
      rw [flushWbio_succ, if_neg hne] at hf
      rcases hl : writeLoop (t.wbio.take 4096) (fuel + 1) 0 t.inner with _ | ⟨_ | _, inner⟩ <;> rw [hl] at hf
      · cases hf
      · exact ⟨_, _, hl, fun h => by cases h⟩
      · exact ⟨_, _, hl, fun _ => ⟨fuel, hf⟩⟩
  · rintro ⟨fuel, ⟨ok, inner⟩, hl, hrest⟩
    cases ok with
    | false =>
      refine ⟨fuel + 1, ?_⟩
      dsimp only
      rw [flushWbio_succ, if_neg hne, writeLoop_succ hl]
      rfl
    | true =>
      obtain ⟨fuel', hf⟩ := hrest rfl
      obtain ⟨r, hr⟩ := Option.isSome_iff_exists.mp hf
      refine ⟨max fuel fuel' + 1, ?_⟩
      dsimp only
      rw [flushWbio_succ, if_neg hne,
        writeLoop_mono (Nat.le_succ_of_le (Nat.le_max_left fuel fuel')) hl]
      exact Option.isSome_iff_exists.mpr ⟨r, flushWbio_mono (Nat.le_max_right fuel fuel') hr⟩

omit [Engine ε] in
theorem flushWbio_ends (t : TlsStream ε σ) :
    Ends (flushWbio · t) ↔ Ends (writeEach · (bioPieces t.wbio) 0 t.inner) := by
  induction hn : t.wbio.length using Nat.strongRecOn generalizing t with
  | ind n ih =>
    subst hn
    by_cases hnil : t.wbio = []
    · rw [bioPieces, if_pos hnil]
      refine iff_of_true ⟨1, ?_⟩ ⟨0, rfl⟩
      dsimp only
      rw [flushWbio_succ, if_pos hnil]
      rfl
    · rw [bioPieces, if_neg hnil, flushWbio_ends_cons hnil, ends_cons]
      have hpos := List.length_pos_iff.mpr hnil
      have hlt : (t.wbio.drop 4096).length < t.wbio.length := by
        rw [List.length_drop]
        omega
      have hrest : ∀ inner, Ends (flushWbio · (t.afterPiece inner)) ↔
          Ends (writeEach · (bioPieces (t.wbio.drop 4096)) 0 inner) :=
        fun inner => ih _ hlt (t.afterPiece inner) rfl
      simp only [hrest]

omit [Engine ε] in
theorem flushWbio_ends_iff (t : TlsStream ε σ) :
    Ends (flushWbio · t) ↔ ¬Stalls (bioPieces t.wbio) 0 t.inner :=
  (flushWbio_ends t).trans ends_iff

end TlsStream

/-! ## An engine that has failed -/

/-- An engine after a fatal error: each call fails again, and nothing is sent any more. -/
structure BrokenEngine where
deriving DecidableEq

instance : Engine BrokenEngine where
  sslWrite b _ := (.failed, [], b)
  bioWrite b _ := b

/-- A stream over such an engine, with nothing left to flush. -/
structure BrokenTls (σ : Type) where
  inner : σ

namespace BrokenTls

variable {σ : Type} [Duplex σ]

def stream (b : BrokenTls σ) : TlsStream BrokenEngine σ := ⟨⟨⟩, [], b.inner⟩

theorem write_stream (b : BrokenTls σ) (fuel : ℕ) (buf : Bytes) :
    b.stream.write (fuel + 1) buf = some (some 0, b.stream) := rfl

instance : Writable (BrokenTls σ) UInt8 where
  write b _ := (some 0, b)
  write_le _ _ _ h := by
    cases h
    exact Nat.zero_le _

omit [Duplex σ] in
theorem refuses (b : BrokenTls σ) (ys : Bytes) : Refuses b ys := fun _ => rfl

end BrokenTls

end Nhttp.Tls
