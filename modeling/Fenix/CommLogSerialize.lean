import Fenix.CommLog
import Fenix.Reader

namespace Fenix

/-- One value of a serialised log. -/
inductive LogToken where
  | int (n : Int)
  | bytes (bs : List UInt8)
  | region (r : Region)
  | cregion (r : CRegion)
  deriving DecidableEq, Repr

abbrev LogReader := Reader LogToken Abort

def readInt : LogReader Int
  | .int n :: ts => .ok (n, ts)
  | _ => .error .unreadableLog

def readBytes (size : Int) : LogReader (List UInt8)
  | .bytes bs :: ts => if bs.length = size then .ok (bs, ts) else .error .unreadableLog
  | _ => .error .unreadableLog

def readRegion : LogReader Region
  | .region r :: ts => .ok (r, ts)
  | _ => .error .unreadableLog

def readCRegion : LogReader CRegion
  | .cregion r :: ts => .ok (r, ts)
  | _ => .error .unreadableLog

def orElse {α : Type} (e : Abort) : Option α → Except Abort α
  | none => .error e
  | some x => .ok x

def readWindow {α : Type} (r : LogReader α) : LogReader (Window α) := do
  let size ← readInt
  let xs ← r.count size.toNat
  Reader.lift (orElse .unreadableLog (Window.ofList? xs))

def readSet {α : Type} (key : α → Int) (r : LogReader α) : LogReader (IndexedSet α key) := do
  let size ← readInt
  let xs ← r.count size.toNat
  Reader.lift (orElse .assertion (IndexedSet.empty.insertAll xs))

def writeWindow {α : Type} (write : α → List LogToken) (w : Window α) : List LogToken :=
  [.int w.size] ++ w.toList.flatMap write

def writeSet {α : Type} {key : α → Int} (write : α → List LogToken) (s : IndexedSet α key) :
    List LogToken :=
  [.int s.entries.length] ++ s.entries.flatMap write

def MPIBuffer.serialize (b : MPIBuffer) : List LogToken :=
  [.int b.datatype] ++ ([.int b.count] ++ ([.int b.bytes.length] ++
    (if 0 < b.bytes.length then [.bytes b.bytes] else [])))

def MPIBuffer.read : LogReader MPIBuffer := do
  let datatype ← readInt
  let count ← readInt
  let size ← readInt
  let bytes ← if 0 < size then readBytes size else Reader.pure []
  Reader.pure ⟨datatype, count, bytes⟩

def SendLog.serialize (s : SendLog) : List LogToken :=
  [.int s.idx] ++ (s.buf.serialize ++ [.int s.tag])

def SendLog.read : LogReader SendLog := do
  let idx ← readInt
  let buf ← MPIBuffer.read
  let tag ← readInt
  Reader.pure ⟨idx, buf, tag⟩

/-- Only for a log whose current region is valid, and that awaits no message. -/
def RankLog.serialize (l : RankLog) : Except Abort (List LogToken) :=
  if l.curRegion.Valid ∧ l.activeIrecv = none then
    .ok (writeSet SendLog.serialize l.sends ++
      ([.int l.alreadySent] ++ writeWindow (fun r => [.region r]) l.regions))
  else .error .assertion

def RankLog.serializeEntry (l : RankLog) : Except Abort (List LogToken) := do
  let ts ← l.serialize
  return .int l.rank :: ts

def RankLog.read (maxRegions : Nat) (rank : Int) : LogReader RankLog := do
  let sends ← readSet SendLog.idx SendLog.read
  let alreadySent ← readInt
  let regions ← readWindow readRegion
  if regions.size = maxRegions ∧ regions.cur.Valid then
    Reader.pure { rank := rank, sends := sends, alreadySent := alreadySent, regions := regions }
  else Reader.fail .assertion

def CommLog.validLogs (c : CommLog) : IndexedSet RankLog RankLog.rank :=
  c.rankLogs.filter fun l => decide l.curRegion.Valid

def CommLog.serialize (c : CommLog) : Except Abort (List LogToken) := do
  let ls ← c.validLogs.entries.mapM RankLog.serializeEntry
  return [.int c.mRank] ++ ([.int c.maxRegions] ++ ([.int c.activeRegion] ++
    (writeWindow (fun r => [.cregion r]) c.regions ++
      ([.int c.validLogs.entries.length] ++ ls.flatten))))

/-- The log that a rank reads back. -/
def CommLog.read (mRank : Int) : LogReader CommLog := do
  let rank ← readInt
  if rank ≠ mRank then Reader.fail .unreadableLog
  else
    let maxRegions ← readInt
    let activeRegion ← readInt
    let regions ← readWindow readCRegion
    let nLogs ← readInt
    let ls ← Reader.count
      (do
        let rank ← readInt
        RankLog.read maxRegions.toNat rank) nLogs.toNat
    let rankLogs ← Reader.lift (orElse .assertion (IndexedSet.empty.insertAll ls))
    Reader.pure
      { mRank := mRank, maxRegions := maxRegions.toNat, activeRegion := activeRegion,
        rankLogs := rankLogs, regions := regions }

def CommLog.deserialize (mRank : Int) (ts : List LogToken) : Except Abort CommLog :=
  (CommLog.read mRank ts).map Prod.fst

/-- What a log becomes by being serialised and read back. -/
def CommLog.restored (c : CommLog) : CommLog :=
  { mRank := c.mRank, maxRegions := c.maxRegions, activeRegion := c.activeRegion,
    rankLogs := c.validLogs, regions := c.regions }

section RoundTrip

theorem reads_int (n : Int) : readInt.Reads [.int n] n := fun _ => rfl

theorem reads_region (r : Region) : readRegion.Reads [.region r] r := fun _ => rfl

theorem reads_cregion (r : CRegion) : readCRegion.Reads [.cregion r] r := fun _ => rfl

theorem reads_window {α : Type} {r : LogReader α} {write : α → List LogToken}
    (h : ∀ x, r.Reads (write x) x) (w : Window α) : (readWindow r).Reads (writeWindow write w) w := by
  refine Reader.reads_bind (reads_int _)
    (Reader.reads_bind_last (x := w.toList) ?_ (Reader.reads_lift ?_))
  · have hc : (r.count w.toList.length).Reads (w.toList.flatMap write) w.toList :=
      Reader.reads_count fun x _ => h x
    rwa [Window.length_toList] at hc
  · rw [Window.ofList?_toList]
    rfl

theorem reads_set {α : Type} {key : α → Int} {r : LogReader α} {write : α → List LogToken}
    (h : ∀ x, r.Reads (write x) x) (s : IndexedSet α key) : (readSet key r).Reads (writeSet write s) s := by
  refine Reader.reads_bind (reads_int _)
    (Reader.reads_bind_last (x := s.entries) ?_ (Reader.reads_lift ?_))
  · exact Reader.reads_count fun x _ => h x
  · rw [IndexedSet.insertAll_entries]
    rfl

theorem reads_buffer (b : MPIBuffer) : MPIBuffer.read.Reads b.serialize b := by
  refine Reader.reads_bind (reads_int _) (Reader.reads_bind (reads_int _)
    (Reader.reads_bind (reads_int _) ?_))
  by_cases h : 0 < b.bytes.length
  · rw [if_pos h, if_pos (by omega)]
    refine Reader.reads_bind_last (x := b.bytes) ?_ (Reader.reads_pure _)
    intro rest
    exact if_pos rfl
  · rw [if_neg h, if_neg (by omega)]
    have hb : b.bytes = [] := by
      rw [← List.length_eq_zero_iff]
      omega
    refine Reader.reads_bind_last (x := b.bytes) ?_ (Reader.reads_pure _)
    rw [hb]
    exact Reader.reads_pure _

theorem reads_send (s : SendLog) : SendLog.read.Reads s.serialize s :=
  Reader.reads_bind (reads_int _) (Reader.reads_bind (reads_buffer _)
    (Reader.reads_bind_last (reads_int _) (Reader.reads_pure _)))

theorem reads_rankLog {l : RankLog} {ts : List LogToken} {maxRegions : Nat} (hs : l.serialize = .ok ts)
    (hw : l.regions.size = maxRegions) : (RankLog.read maxRegions l.rank).Reads ts l := by
  unfold RankLog.serialize at hs
  split at hs
  next h =>
    cases Except.ok.inj hs
    refine Reader.reads_bind (reads_set reads_send _) (Reader.reads_bind (reads_int _)
      (Reader.reads_bind_last (reads_window reads_region _) ?_))
    rw [if_pos ⟨hw, h.1⟩]
    have hl : l = { rank := l.rank, sends := l.sends, alreadySent := l.alreadySent, regions := l.regions } := by
      obtain ⟨rank, sends, alreadySent, regions, activeIrecv⟩ := l
      have ha : activeIrecv = none := h.2
      subst ha
      rfl
    rw [hl]
    exact Reader.reads_pure _
  next => cases hs

theorem serialize_logs {ls : List RankLog} {tss : List (List LogToken)} {maxRegions : Nat}
    (hs : ls.mapM RankLog.serializeEntry = .ok tss)
    (hw : ∀ l ∈ ls, l.regions.size = maxRegions) :
    (Reader.count (do
      let rank ← readInt
      RankLog.read maxRegions rank) ls.length).Reads tss.flatten ls := by
  have hf := List.mapM_eq_ok_iff.mp hs
  clear hs
  induction hf with
  | nil => exact Reader.reads_pure []
  | @cons l ts ls tss hl _ ih =>
    obtain ⟨ts', hts, he⟩ := Except.bind_eq_ok_iff.mp hl
    cases Except.ok.inj he
    have hfirst := Reader.reads_bind (reads_int l.rank) (reads_rankLog hts (hw l List.mem_cons_self))
    refine Reader.reads_bind hfirst (Reader.reads_bind_last ?_ (Reader.reads_pure _))
    exact ih fun l' hl' => hw l' (List.mem_cons_of_mem _ hl')

/-- Reading back what was written yields the log without its collectives and unused peer logs. -/
theorem deserialize_serialize {c : CommLog} {ts : List LogToken} (hs : c.serialize = .ok ts)
    (hw : ∀ l ∈ c.rankLogs, l.regions.size = c.maxRegions) :
    CommLog.deserialize c.mRank ts = .ok c.restored := by
  obtain ⟨tss, hl, he⟩ := Except.bind_eq_ok_iff.mp hs
  cases Except.ok.inj he
  have hr : (CommLog.read c.mRank).Reads ([.int c.mRank] ++ ([.int c.maxRegions] ++ ([.int c.activeRegion] ++
      (writeWindow (fun r => [.cregion r]) c.regions ++
        ([.int c.validLogs.entries.length] ++ tss.flatten))))) c.restored := by
    refine Reader.reads_bind (reads_int _) ?_
    rw [if_neg (not_not.mpr rfl)]
    refine Reader.reads_bind (reads_int _) (Reader.reads_bind (reads_int _)
      (Reader.reads_bind (reads_window reads_cregion _) (Reader.reads_bind (reads_int _) ?_)))
    refine Reader.reads_bind_last (x := c.validLogs.entries) ?_ ?_
    · refine serialize_logs hl fun l hm => ?_
      exact hw l (IndexedSet.mem_filter.mp hm).1
    · refine Reader.reads_bind_last (e := []) (x := c.validLogs) (Reader.reads_lift ?_) (Reader.reads_pure _)
      rw [IndexedSet.insertAll_entries]
      rfl
  have h := hr []
  rw [List.append_nil] at h
  rw [CommLog.deserialize, h]
  rfl

end RoundTrip

end Fenix
