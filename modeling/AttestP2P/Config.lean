import AttestP2P.Buffer

/-!
# Configuration

The constants of `src/config.js` that the modelled code reads, under the same names and with the
same values.  Sizes are in bytes and times in milliseconds.  Most of them are defaults only: the
classes that use them take other values as options, and what is proved about these classes is proved
for any values, unless a bound on a size is what the result is about.

`getHmacKey` is the one function of the file.  It reads the environment, which is an argument here,
and throws if the secret is absent or empty; nothing else in the program stands in for it.
-/

set_option autoImplicit false

namespace AttestP2P

/-- `Buffer.from("ATTP")`, which every packet starts with. -/
def magic : Buffer := [0x41, 0x54, 0x54, 0x50]

def maxPayloadSize : ℕ := 1 * 1024 * 1024
def maxPacketSize : ℕ := 2 * 1024 * 1024
def maxBufferSize : ℕ := 5 * 1024 * 1024
def maxPacketsPerSecond : ℕ := 50
def maxPacketsPerSecondPerIp : ℕ := 200

def partialPacketTimeout : ℕ := 5000
def maxConnectionTime : ℕ := 60000

def replayEnvelopeLen : ℕ := 24
def replayWindowMs : ℕ := 30000
def replayCacheMax : ℕ := 100000

def peerTtlMs : ℕ := 15000

def blacklistBanMs : ℕ := 5 * 60 * 1000
def blacklistStrikeThreshold : ℕ := 5
def blacklistStrikeWindowMs : ℕ := 60 * 1000

def sessionMaxFrame : ℕ := 2 * 1024 * 1024
def sessionMaxMsgPerSecond : ℕ := 100
def sessionRekeyEveryMsgs : ℕ := 1000
def sessionRekeyEveryBytes : ℕ := 8 * 1024 * 1024
def sessionRekeyEveryMs : ℕ := 5 * 60 * 1000

/-- `HMAC_SECRET` of the environment, absent or empty when it is not set. -/
abbrev HmacSecret := Option Buffer

def getHmacKey : HmacSecret → Except String Buffer
  | some (b :: key) => .ok (b :: key)
  | _ => .error
    "HMAC_SECRET manquant : définissez la variable d'environnement (voir .env.example)"

end AttestP2P
