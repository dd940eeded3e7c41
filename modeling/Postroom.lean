import Postroom.Queue.Workers
import Postroom.Delivery.SessionSound
import Postroom.Delivery.Retries
import Postroom.Smtp.EngineSafe
import Postroom.Imap.SilentStore
import Postroom.Mime.Invariance
import Postroom.ImapProto.Conversation
import Postroom.Sieve.Safety
import Postroom.Crypto.StreamSound
import Postroom.Dav.Converge
import Postroom.Dkim.Rotation
import Postroom.Submission.CapsHold
import Postroom.AuthThrottle.Bounded
import Postroom.Delivery.MtaSts
import Postroom.Imap.MailboxTree
import Postroom.ImapProto.Mutf7
import Postroom.Search.Pages
import Postroom.Mail.WebmailMove
import Postroom.Ical.Timezone
import Postroom.Phish.Skeleton
