import RttHttp.Text.Bytes

/-! # Server options -/

namespace RttHttp.Server

/-- `ServerOptions`, with its defaults. -/
structure ServerOptions where
  bindAddress : Bytes := bytes "127.0.0.1"
  port : UInt32 := 8080
  tlsEnabled : Bool := false
  certificateFile : Bytes := []
  privateKeyFile : Bytes := []
  workerThreads : UInt32 := 4
  maxQueuedConnections : UInt32 := 64
  maxPendingOperations : UInt32 := 32
  operationTimeoutMs : UInt32 := 5000
  maxRequestBodyBytes : UInt32 := 1048576
  maxResponseBodyBytes : UInt32 := 8388608
  maxJsonDepth : UInt32 := 64
  socketReadTimeoutMs : UInt32 := 5000
  socketWriteTimeoutMs : UInt32 := 5000
  keepAliveTimeoutMs : UInt32 := 5000
  keepAliveMaxRequests : UInt32 := 100
  shutdownGraceMs : UInt32 := 10000
  deriving DecidableEq

/-- The options that must be positive, in the order in which they are checked. -/
def ServerOptions.positive (o : ServerOptions) : List (String × UInt32) :=
  [("workerThreads", o.workerThreads),
    ("maxQueuedConnections", o.maxQueuedConnections),
    ("maxPendingOperations", o.maxPendingOperations),
    ("operationTimeoutMs", o.operationTimeoutMs),
    ("maxRequestBodyBytes", o.maxRequestBodyBytes),
    ("maxResponseBodyBytes", o.maxResponseBodyBytes),
    ("maxJsonDepth", o.maxJsonDepth),
    ("socketReadTimeoutMs", o.socketReadTimeoutMs),
    ("socketWriteTimeoutMs", o.socketWriteTimeoutMs),
    ("keepAliveTimeoutMs", o.keepAliveTimeoutMs),
    ("keepAliveMaxRequests", o.keepAliveMaxRequests),
    ("shutdownGraceMs", o.shutdownGraceMs)]

def intMax : Nat := 2 ^ 31 - 1

/-- `std::numeric_limits<std::size_t>::max()` on a 64-bit target. -/
def memoryMax : Nat := 2 ^ 64 - 1

/-- `sizeof(std::shared_ptr<T>)` on a 64-bit target. -/
def sharedPtrBytes : Nat := 16

/-- `validateOptions`. `openssl` is the build's `CPPHTTPLIB_OPENSSL_SUPPORT`. -/
def validateOptions (openssl : Bool) (o : ServerOptions) : Except String Unit :=
  if o.bindAddress.isEmpty || o.bindAddress.length > 1024 || o.bindAddress.contains 0 then
    .error "bindAddress must be a nonempty host or IP address"
  else if o.port = 0 || o.port > 65535 then
    .error "port must be in 1..65535"
  else match o.positive.find? (fun entry => entry.2 = 0) with
    | some entry => .error (entry.1 ++ " must be positive")
    | none =>
      if o.workerThreads > 1024 then
        .error "workerThreads exceeds the supported thread capacity (1024)"
      else if o.socketReadTimeoutMs.toNat > intMax || o.socketWriteTimeoutMs.toNat > intMax ||
          o.keepAliveTimeoutMs.toNat > intMax then
        .error "socket and keep-alive timeouts exceed the native polling range"
      else if o.keepAliveTimeoutMs % 1000 ≠ 0 then
        .error "keepAliveTimeoutMs must be a whole number of seconds for cpp-httplib"
      else if o.maxRequestBodyBytes.toNat > memoryMax / 8 ||
          o.maxResponseBodyBytes.toNat > memoryMax / 8 ||
          o.maxQueuedConnections.toNat >
            memoryMax / sharedPtrBytes - o.workerThreads.toNat - 1 then
        .error "configured payload or connection capacity exceeds addressable storage"
      else if o.tlsEnabled && (o.certificateFile.isEmpty || o.privateKeyFile.isEmpty ||
          o.certificateFile.contains 0 || o.privateKeyFile.contains 0) then
        .error "certificateFile and privateKeyFile are required for TLS"
      else if !openssl && o.tlsEnabled then
        .error "tlsEnabled requires an HTTP SDK built with OpenSSL"
      else .ok ()

/-- The defaults pass their own check, with or without TLS support. -/
theorem validateOptions_default (openssl : Bool) : validateOptions openssl {} = .ok () := by
  cases openssl <;> decide

/-- Accepted options allow at least one pending operation and one worker. -/
theorem pos_of_validateOptions {openssl : Bool} {o : ServerOptions}
    (hvalid : validateOptions openssl o = .ok ()) :
    0 < o.maxPendingOperations ∧ 0 < o.workerThreads := by
  have hnone : o.positive.find? (fun entry => entry.2 = 0) = none := by
    unfold validateOptions at hvalid
    split at hvalid
    · cases hvalid
    · split at hvalid
      · cases hvalid
      · split at hvalid
        next => cases hvalid
        next hnone => exact hnone
  rw [List.find?_eq_none] at hnone
  have hpending := hnone ("maxPendingOperations", o.maxPendingOperations)
    (by simp [ServerOptions.positive])
  have hworkers := hnone ("workerThreads", o.workerThreads) (by simp [ServerOptions.positive])
  simp only [decide_eq_true_eq] at hpending hworkers
  exact ⟨UInt32.pos_iff_ne_zero.mpr hpending, UInt32.pos_iff_ne_zero.mpr hworkers⟩

end RttHttp.Server
